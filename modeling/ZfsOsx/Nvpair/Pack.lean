import ZfsOsx.Nvpair.Native
import ZfsOsx.Lib.Cursor

/-!
# Packing an nvlist (`module/nvpair/nvpair.c`)

`nvlist_xpack` sizes an nvlist with `nvlist_size` (the `NVS_OP_GETSIZE` pass),
allocates that many bytes and encodes into them (`NVS_OP_ENCODE`). The two
passes are separate code: `nvs_native_nvp_size`, `nvs_xdr_nvp_size` and the
`nvs_nvlist` operations count, while `native_cp` and the XDR routines write,
each write checked against the end of the buffer.

The pairs are kept as `nvlist_add_common` built them, and the encoding pass
writes through a cursor (`Cursor.put`): what it writes is counted, not the
bytes themselves. The XDR routines are those of the XDR standard, which
`nvpair.c` calls: `xdr_int` and `xdr_char` take 4 bytes, `xdr_opaque` rounds
up to 4, and a string or an array is led by its 4-byte count.

* `getsizePairs_eq`: a size pass that succeeds gives the sum of the pairs' bytes.
* `nativeEncodePairs_writes`: the native encoding writes exactly those bytes.
* `xdrEncodePairs_writes`: the XDR encoding writes at most those bytes; less
  only for an array of no elements, whose count word is counted but not written.
* `nvlistXpack_size_agrees`: so `nvlist_xpack` never runs out of the buffer
  `nvlist_size` sized.
-/
namespace ZfsOsx.Nvpair.Pack

open Cursor

/-- `NV_ENCODE_NATIVE` and `NV_ENCODE_XDR`. -/
inductive Encoding
  | native
  | xdr
  deriving DecidableEq, Repr

/-- How packing stops: a write that does not fit the buffer, another
`EFAULT`, or `EINVAL`. -/
inductive PackFault
  | noRoom
  | efault
  | einval
  deriving DecidableEq, Repr

mutual

/-- The pairs of an nvlist in memory, in the order of its `nvp_list`: each a
name, the bytes before its NUL, and a value. -/
inductive Pairs where
  | nil
  | cons (name : List Char) (value : Value) (rest : Pairs)

/-- A value as `nvlist_add_common` stored it. Of a value that is neither a
string nor an embedded list only the type and the element count matter to
its size and its encoding. -/
inductive Value where
  | plain (type : DataType) (nelem : ℕ)
  | string (s : List Char)
  | stringArray (strs : List (List Char))
  | nvlist (l : Pairs)
  | nvlistArray (ls : Lists)

/-- The embedded lists of an nvlist array. -/
inductive Lists where
  | nil
  | cons (l : Pairs) (rest : Lists)

end

def Lists.length : Lists → ℕ
  | .nil => 0
  | .cons _ rest => rest.length + 1

/-- The types of the values that are neither strings nor embedded lists. -/
def isPlainType : DataType → Bool
  | .string | .stringArray | .nvlist | .nvlistArray => false
  | _ => true

namespace Value

/-- `NVP_TYPE`. -/
def type : Value → DataType
  | plain t _ => t
  | string _ => .string
  | stringArray _ => .stringArray
  | nvlist _ => .nvlist
  | nvlistArray _ => .nvlistArray

/-- `NVP_NELEM`. -/
def nelem : Value → ℕ
  | plain _ n => n
  | string _ => 1
  | stringArray strs => strs.length
  | nvlist _ => 1
  | nvlistArray ls => ls.length

/-- The value size `i_get_value_size(type, data, nelem)` gives
`nvlist_add_common`: the strings and their NULs after the pointers. -/
def dataSize : Value → ℕ
  | string s => s.length + 1
  | stringArray strs => strs.length * 8 + (strs.map fun s => s.length + 1).sum
  | v => valueSizeNull v.type v.nelem

/-- `i_get_value_size(type, data, nelem)`; `none` for its -1.
mirrors module/nvpair/nvpair.c:719-831 -/
def getValueSize (v : Value) : Option ℕ :=
  if iValidateTypeNelem v.type v.nelem = false then none
  else if int32Max < v.dataSize then none
  else some v.dataSize

end Value

/-- `nvp_size`: `NVP_SIZE_CALC(name_sz, value_sz)`, as `nvlist_add_common`
allocated the pair. -/
def nvpSize (name : List Char) (v : Value) : ℕ := nvpSizeCalc (name.length + 1) v.dataSize

mutual

/-- What `nvlist_add_common` checked of each pair it added, in every embedded
list: `i_get_value_size` with the data succeeded, so the type, the element
count and the value size are valid.
mirrors module/nvpair/nvpair.c:858-981 -/
def Pairs.Added : Pairs → Prop
  | .nil => True
  | .cons _ v rest => v.Added ∧ rest.Added

def Value.Added : Value → Prop
  | .plain t n => isPlainType t = true ∧ (Value.plain t n).getValueSize.isSome
  | .string s => (Value.string s).getValueSize.isSome
  | .stringArray strs => (Value.stringArray strs).getValueSize.isSome
  | .nvlist l => l.Added
  | .nvlistArray ls => (Value.nvlistArray ls).getValueSize.isSome ∧ ls.Added

def Lists.Added : Lists → Prop
  | .nil => True
  | .cons l rest => l.Added ∧ rest.Added

end

/-! ## The size pass -/

/-- `NV_ALIGN4`. -/
def nvAlign4 (x : ℕ) : ℕ := (x + 3) / 4 * 4

/-- What the `nvs_nvlist` operation adds to the size of a list, by its
`n_flag`: `nvs_native_nvlist` counts `nvl_version`, `nvl_nvflag` and the end
marker for the outermost list and only the end marker for an embedded one;
`nvs_xdr_nvlist` counts the two words and the two end words for every list.
mirrors module/nvpair/nvpair.c:2516-2556
mirrors module/nvpair/nvpair.c:2869-2894 -/
def nvlistWords : Encoding → Bool → ℕ
  | .native, false => 2 * 4 + 4
  | .native, true => 4
  | .xdr, _ => 2 * 4 + 8

/-- The XDR bytes `nvs_xdr_nvp_size` counts for a value that is neither a
string nor an embedded list; `none` for a type it does not encode.
mirrors module/nvpair/nvpair.c:3109-3150 -/
def xdrPlainSize (t : DataType) (nelem : ℕ) : Option ℕ :=
  match t with
  | .boolean => some 0
  | .booleanValue | .byte | .int8 | .uint8 | .int16 | .uint16 | .int32 | .uint32 => some 4
  | .int64 | .uint64 | .hrtime => some 8
  | .byteArray => some (nvAlign4 nelem)
  | .booleanArray | .int8Array | .uint8Array | .int16Array | .uint16Array | .int32Array
  | .uint32Array => some (4 + 4 * nelem)
  | .int64Array | .uint64Array => some (4 + 8 * nelem)
  | _ => none

/-- The XDR bytes of a value without the lists it embeds.
mirrors module/nvpair/nvpair.c:3109-3170 -/
def xdrValueSize : Value → Option ℕ
  | .plain t n => xdrPlainSize t n
  | .string s => some (4 + nvAlign4 s.length)
  | .stringArray strs => some (strs.map fun s => 4 + nvAlign4 s.length).sum
  | .nvlist _ | .nvlistArray _ => some 0

/-- The size `nvs_nvp_size` gives a pair whose embedded lists take `nested`
bytes: `nvs_native_nvp_size` adds them to `nvp_size`, `nvs_xdr_nvp_size` to
the five words, the name and the value. `none` for `EINVAL`.
mirrors module/nvpair/nvpair.c:2709-2743
mirrors module/nvpair/nvpair.c:3098-3195 -/
def nvpSizeWith (enc : Encoding) (name : List Char) (v : Value) (nested : ℕ) : Option ℕ := do
  let own ← match enc with
    | .native => some (nvpSize name v)
    | .xdr => (xdrValueSize v).map (4 + 4 + 4 + nvAlign4 name.length + 4 + 4 + ·)
  if int32Max < own + nested then none else some (own + nested)

mutual

/-- `nvs_getsize_pairs`: `nvsize` with the size of each pair added; `none`
for `EINVAL`.
mirrors module/nvpair/nvpair.c:2105-2126 -/
def getsizePairs (enc : Encoding) : Pairs → ℕ → Option ℕ
  | .nil, nvsize => some nvsize
  | .cons name v rest, nvsize => do
    let size ← nvsNvpSize enc name v
    if int32Max < nvsize + size then none else getsizePairs enc rest (nvsize + size)

/-- `nvs_nvp_size`: an embedded list is counted by `nvs_operation` from 0,
with `n_flag` set, and an nvlist array by `nvs_embedded_nvl_array`. -/
def nvsNvpSize (enc : Encoding) (name : List Char) : Value → Option ℕ
  | .nvlist l => getsizePairs enc l (nvlistWords enc true) >>= nvpSizeWith enc name (.nvlist l)
  | .nvlistArray ls => embeddedArraySize enc ls 0 >>= nvpSizeWith enc name (.nvlistArray ls)
  | v => nvpSizeWith enc name v 0

/-- `nvs_embedded_nvl_array` in the size pass.
mirrors module/nvpair/nvpair.c:2218-2234 -/
def embeddedArraySize (enc : Encoding) : Lists → ℕ → Option ℕ
  | .nil, nvsize => some nvsize
  | .cons l rest, nvsize => do
    let nvpSz ← getsizePairs enc l (nvlistWords enc true)
    if int32Max < nvsize + nvpSz then none else embeddedArraySize enc rest (nvsize + nvpSz)

end

/-- `nvlist_size`: the 4 bytes of `nvs_header_t`, then `nvs_operation` on the
outermost list, whose `n_flag` is 0.
mirrors module/nvpair/nvpair.c:2333-2337 -/
def nvlistSize (enc : Encoding) (l : Pairs) : Option ℕ :=
  getsizePairs enc l (4 + nvlistWords enc false)

/-! ## The native encoding -/

/-- `native_cp` when encoding: `size` bytes at the cursor, `EFAULT` when they
do not fit before `n_end`.
mirrors module/nvpair/nvpair.c:2486-2513 -/
def nativeCp (size : ℕ) : ℕ → ℕ → Except PackFault ℕ := put .noRoom size

/-- `nvs_native_nvlist` when encoding: `nvl_version` and `nvl_nvflag` for the
outermost list, nothing for an embedded one, whose `n_flag` is set. -/
def nativeNvlist (flag : Bool) (cap c : ℕ) : Except PackFault ℕ :=
  if flag then pure c else nativeCp 4 cap c >>= nativeCp 4 cap

/-- The checks `nvs_native_nvp_op` makes of the pair it copied:
`i_validate_nvpair_name` (the name's NUL is where `nvp_name_sz` says, which
holds of a name kept without it) and the room for the value without its
strings. -/
def nativeNvpValid (name : List Char) (v : Value) : Bool :=
  nvpSizeCalc (name.length + 1) 0 ≤ nvpSize name v &&
    match iGetValueSize v.type v.nelem with
    | none => false
    | some vs => nvpSizeCalc (name.length + 1) vs ≤ nvpSize name v

/-- `nvs_native_nvp_op` before its type switch: the copy of the pair, then
its checks. -/
def nativeNvpCopy (name : List Char) (v : Value) (cap c : ℕ) : Except PackFault ℕ := do
  let c ← nativeCp (nvpSize name v) cap c
  if nativeNvpValid name v then pure c else throw .efault

/-- The `EFAULT` a caller returns for any failure of an `nvs_nvpair` or an
`nvs_embedded`; a write that did not fit was one already. -/
def toEfault : PackFault → PackFault
  | .noRoom => .noRoom
  | _ => .efault

mutual

/-- `nvs_encode_pairs` with the native operations: each pair, then the end
marker of `nvs_native_nvl_fini`.
mirrors module/nvpair/nvpair.c:2051-2065
mirrors module/nvpair/nvpair.c:2558-2575 -/
def nativeEncodePairs (cap : ℕ) : Pairs → ℕ → Except PackFault ℕ
  | .nil, c => nativeCp 4 cap c
  | .cons name v rest, c => do
    let c ← (nativeNvpOp cap name v c).mapError toEfault
    nativeEncodePairs cap rest c

/-- `nvs_native_nvp_op` when encoding: an embedded list goes on through
`nvs_embedded`, whose `nvs_operation` finds `n_flag` set.
mirrors module/nvpair/nvpair.c:2577-2707 -/
def nativeNvpOp (cap : ℕ) (name : List Char) : Value → ℕ → Except PackFault ℕ
  | .nvlist l, c => do
    let c ← nativeNvpCopy name (.nvlist l) cap c
    let c ← nativeNvlist true cap c
    nativeEncodePairs cap l c
  | .nvlistArray ls, c => do
    let c ← nativeNvpCopy name (.nvlistArray ls) cap c
    nativeEmbeddedArray cap ls c
  | v, c => nativeNvpCopy name v cap c

/-- `nvs_embedded_nvl_array` when encoding.
mirrors module/nvpair/nvpair.c:2192-2203 -/
def nativeEmbeddedArray (cap : ℕ) : Lists → ℕ → Except PackFault ℕ
  | .nil, c => pure c
  | .cons l rest, c => do
    let c ← (nativeNvlist true cap c >>= nativeEncodePairs cap l).mapError toEfault
    nativeEmbeddedArray cap rest c

end

/-! ## The XDR encoding -/

/-- Bytes of the XDR stream: `xdrmem` checks the bytes left before each put. -/
def xdrPut (k : ℕ) : ℕ → ℕ → Except PackFault ℕ := put .noRoom k

/-- `xdr_longlong_t`: two units. -/
def xdrHyper (cap c : ℕ) : Except PackFault ℕ := xdrPut 4 cap c >>= xdrPut 4 cap

/-- `xdr_opaque` when encoding: the bytes, then zeros to a multiple of 4. -/
def xdrOpaque (cnt cap c : ℕ) : Except PackFault ℕ :=
  xdrPut cnt cap c >>= xdrPut (nvAlign4 cnt - cnt) cap

/-- `xdr_string` when encoding: the length, then the bytes; `FALSE` for a
string longer than `maxsize`. -/
def xdrString (s : List Char) (maxsize cap c : ℕ) : Except PackFault ℕ := do
  let c ← xdrPut 4 cap c
  if maxsize < s.length then throw .efault else xdrOpaque s.length cap c

/-- `xdr_array` when encoding `nelem` elements of `elsize` XDR bytes each: the
count, then each element; `FALSE` for more than `maxsize` elements. -/
def xdrArray (nelem maxsize elsize cap c : ℕ) : Except PackFault ℕ := do
  let c ← xdrPut 4 cap c
  if maxsize < nelem then throw .efault else putMany .noRoom elsize nelem cap c

/-- `nvs_xdr_nvlist` when encoding: `nvl_version` and `nvl_nvflag`, for every list. -/
def xdrNvlist (cap c : ℕ) : Except PackFault ℕ := xdrPut 4 cap c >>= xdrPut 4 cap

/-- `nvs_xdr_nvl_fini` when encoding: two zero words. -/
def xdrNvlFini (cap c : ℕ) : Except PackFault ℕ := xdrPut 4 cap c >>= xdrPut 4 cap

/-- The type switch of `nvs_xdr_nvp_op` for a value that is neither a string
nor an embedded list, `buflen` the bytes of the pair from `NVP_VALUE`.
mirrors module/nvpair/nvpair.c:2981-3050 -/
def xdrPlainValue (t : DataType) (nelem buflen cap c : ℕ) : Except PackFault ℕ :=
  match t with
  | .boolean => pure c
  | .byte | .int8 | .uint8 | .int16 | .uint16 | .booleanValue | .int32 | .uint32 => xdrPut 4 cap c
  | .int64 | .uint64 | .hrtime => xdrHyper cap c
  | .byteArray => xdrOpaque nelem cap c
  | .int8Array | .uint8Array => xdrArray nelem buflen 4 cap c
  | .int16Array | .uint16Array => xdrArray nelem (buflen / 2) 4 cap c
  | .booleanArray | .int32Array | .uint32Array => xdrArray nelem (buflen / 4) 4 cap c
  | .int64Array | .uint64Array => xdrArray nelem (buflen / 8) 8 cap c
  | _ => throw .efault

/-- The string array loop of `nvs_xdr_nvp_op`: `len` is what the step before
took of the pair (the pointers, then each string with its NUL) and `buflen`
what was left of it before.
mirrors module/nvpair/nvpair.c:3052-3074 -/
def xdrStrings (cap : ℕ) : List (List Char) → ℕ → ℕ → ℕ → Except PackFault ℕ
  | [], _, _, c => pure c
  | s :: rest, buflen, len, c =>
    if buflen ≤ len then throw .efault
    else do
      let c ← xdrString s (buflen - len - 1) cap c
      xdrStrings cap rest (buflen - len) (s.length + 1) c

/-- `nvs_xdr_nvpair` when encoding, up to the type switch of
`nvs_xdr_nvp_op`: the pair's two sizes (`nvs_xdr_nvp_size` first), its name,
type and element count.
mirrors module/nvpair/nvpair.c:2914-2946
mirrors module/nvpair/nvpair.c:3226-3240 -/
def xdrNvpHead (name : List Char) (v : Value) (cap c : ℕ) : Except PackFault ℕ := do
  let some _ := nvsNvpSize .xdr name v | throw .efault
  let c ← xdrPut 4 cap c
  let c ← xdrPut 4 cap c
  if nvpSize name v ≤ 16 then throw .efault
  let c ← xdrString name (nvpSize name v - 16 - 1) cap c
  let c ← xdrPut 4 cap c
  xdrPut 4 cap c

/-- The rest of `nvs_xdr_nvp_op` before its type switch: nothing more for no
elements, then the checks of the room after `NVP_VALUE`, then `value` of that
room.
mirrors module/nvpair/nvpair.c:2948-2967 -/
def xdrNvpValue (name : List Char) (v : Value) (value : ℕ → ℕ → Except PackFault ℕ)
    (c : ℕ) : Except PackFault ℕ :=
  match iGetValueSize v.type v.nelem with
  | none => throw .efault
  | some valueSz =>
    if v.nelem = 0 then pure c
    else if nvpSize name v ≤ nvAlign (16 + (name.length + 1)) then throw .efault
    else if nvpSize name v - nvAlign (16 + (name.length + 1)) < valueSz then throw .efault
    else value (nvpSize name v - nvAlign (16 + (name.length + 1))) c

mutual

/-- `nvs_encode_pairs` with the XDR operations: each pair, then
`nvs_xdr_nvl_fini`. -/
def xdrEncodePairs (cap : ℕ) : Pairs → ℕ → Except PackFault ℕ
  | .nil, c => xdrNvlFini cap c
  | .cons name v rest, c => do
    let c ← (xdrNvpair cap name v c).mapError toEfault
    xdrEncodePairs cap rest c

/-- `nvs_xdr_nvpair` when encoding: an embedded list goes on through
`nvs_embedded`, and a failure there is the `EFAULT` of `nvs_xdr_nvp_op`. -/
def xdrNvpair (cap : ℕ) (name : List Char) : Value → ℕ → Except PackFault ℕ
  | .nvlist l, c => do
    let c ← xdrNvpHead name (.nvlist l) cap c
    xdrNvpValue name (.nvlist l)
      (fun _ c => (xdrNvlist cap c >>= xdrEncodePairs cap l).mapError toEfault) c
  | .nvlistArray ls, c => do
    let c ← xdrNvpHead name (.nvlistArray ls) cap c
    xdrNvpValue name (.nvlistArray ls) (fun _ c => xdrEmbeddedArray cap ls c) c
  | .plain t n, c => do
    let c ← xdrNvpHead name (.plain t n) cap c
    xdrNvpValue name (.plain t n) (fun buflen c => xdrPlainValue t n buflen cap c) c
  | .string s, c => do
    let c ← xdrNvpHead name (.string s) cap c
    xdrNvpValue name (.string s) (fun buflen c => xdrString s (buflen - 1) cap c) c
  | .stringArray strs, c => do
    let c ← xdrNvpHead name (.stringArray strs) cap c
    xdrNvpValue name (.stringArray strs)
      (fun buflen c => xdrStrings cap strs buflen (strs.length * 8) c) c

/-- `nvs_embedded_nvl_array` when encoding with the XDR operations. -/
def xdrEmbeddedArray (cap : ℕ) : Lists → ℕ → Except PackFault ℕ
  | .nil, c => pure c
  | .cons l rest, c => do
    let c ← (xdrNvlist cap c >>= xdrEncodePairs cap l).mapError toEfault
    xdrEmbeddedArray cap rest c

end

/-! ## `nvlist_xpack` -/

/-- `nvlist_common` when encoding into a buffer of `buflen` bytes: the 4 bytes
of `nvs_header_t`, then `nvs_operation` on the outermost list in the rest.
The bytes of the buffer written.
mirrors module/nvpair/nvpair.c:2251-2331 -/
def nvlistEncode (enc : Encoding) (l : Pairs) (buflen : ℕ) : Except PackFault ℕ :=
  if buflen < 4 then throw .einval
  else
    let body := match enc with
      | .native => nativeNvlist false (buflen - 4) 0 >>= nativeEncodePairs (buflen - 4) l
      | .xdr => xdrNvlist (buflen - 4) 0 >>= xdrEncodePairs (buflen - 4) l
    body.map (4 + ·)

/-- `nvlist_xpack` with no buffer given: `nvlist_size`, then the encoding into
a buffer of that size. The size of the buffer.
mirrors module/nvpair/nvpair.c:2355-2399 -/
def nvlistXpack (enc : Encoding) (l : Pairs) : Except PackFault ℕ :=
  match nvlistSize enc l with
  | none => throw .einval
  | some s => (nvlistEncode enc l s).map fun _ => s

/-! ## What each pass counts -/

/-- The bytes a pair takes in the size pass without its embedded lists. -/
def ownBytes (enc : Encoding) (name : List Char) (v : Value) : ℕ :=
  match enc with
  | .native => nvpSize name v
  | .xdr => 4 + 4 + 4 + nvAlign4 name.length + 4 + 4 + (xdrValueSize v).getD 0

mutual

/-- The bytes the size pass gives the pairs of a list. -/
def pairsBytes (enc : Encoding) : Pairs → ℕ
  | .nil => 0
  | .cons name v rest => valueBytes enc name v + pairsBytes enc rest

/-- The bytes the size pass gives a pair, its embedded lists included. -/
def valueBytes (enc : Encoding) (name : List Char) : Value → ℕ
  | .nvlist l => ownBytes enc name (.nvlist l) + (nvlistWords enc true + pairsBytes enc l)
  | .nvlistArray ls => ownBytes enc name (.nvlistArray ls) + listsBytes enc ls
  | v => ownBytes enc name v

/-- The bytes the size pass gives the lists of an nvlist array. -/
def listsBytes (enc : Encoding) : Lists → ℕ
  | .nil => 0
  | .cons l rest => nvlistWords enc true + pairsBytes enc l + listsBytes enc rest

end

section SizePass

variable {enc : Encoding}

theorem nvpSizeWith_eq {name : List Char} {v : Value} {nested s : ℕ}
    (h : nvpSizeWith enc name v nested = some s) : s = ownBytes enc name v + nested := by
  cases enc with
  | native =>
    simp only [nvpSizeWith, Option.bind_eq_bind, Option.bind_some] at h
    split at h
    · cases h
    · exact (Option.some_inj.1 h).symm
  | xdr =>
    simp only [nvpSizeWith, Option.bind_eq_bind] at h
    cases hx : xdrValueSize v with
    | none => simp [hx] at h
    | some x =>
      simp only [hx, Option.map_some, Option.bind_some] at h
      split at h
      · cases h
      · rw [← Option.some_inj.1 h, ownBytes, hx, Option.getD_some]

/-- A step of the size loops: the next size is known and the loop goes on
from the sum. -/
theorem bind_bound_eq_some {x : Option ℕ} {n s : ℕ} {k : ℕ → Option ℕ}
    (h : (x >>= fun size => if int32Max < n + size then none else k (n + size)) = some s) :
    ∃ size, x = some size ∧ k (n + size) = some s := by
  cases hx : x with
  | none => simp [hx] at h
  | some size =>
    rw [hx] at h
    simp only [Option.bind_eq_bind, Option.bind_some] at h
    split at h
    · cases h
    · exact ⟨size, rfl, h⟩

mutual

/-- A size pass that succeeds is the sum of what it counts. -/
theorem getsizePairs_eq : ∀ (l : Pairs) (n s : ℕ), getsizePairs enc l n = some s →
    s = n + pairsBytes enc l
  | .nil, n, s, h => by
    rw [getsizePairs, Option.some_inj] at h
    rw [← h, pairsBytes, Nat.add_zero]
  | .cons name v rest, n, s, h => by
    obtain ⟨size, hsize, hrest⟩ := bind_bound_eq_some h
    rw [getsizePairs_eq rest _ _ hrest, nvsNvpSize_eq name v size hsize, pairsBytes]
    omega

theorem nvsNvpSize_eq (name : List Char) : ∀ (v : Value) (s : ℕ), nvsNvpSize enc name v = some s →
    s = valueBytes enc name v
  | .nvlist l, s, h => by
    rw [nvsNvpSize, Option.bind_eq_bind, Option.bind_eq_some_iff] at h
    obtain ⟨nested, hnested, h⟩ := h
    rw [nvpSizeWith_eq h, getsizePairs_eq l _ _ hnested, valueBytes]
  | .nvlistArray ls, s, h => by
    rw [nvsNvpSize, Option.bind_eq_bind, Option.bind_eq_some_iff] at h
    obtain ⟨nested, hnested, h⟩ := h
    rw [nvpSizeWith_eq h, embeddedArraySize_eq ls _ _ hnested, valueBytes, Nat.zero_add]
  | .plain t n, s, h => (nvpSizeWith_eq h).trans (Nat.add_zero _)
  | .string str, s, h => (nvpSizeWith_eq h).trans (Nat.add_zero _)
  | .stringArray strs, s, h => (nvpSizeWith_eq h).trans (Nat.add_zero _)

theorem embeddedArraySize_eq : ∀ (ls : Lists) (n s : ℕ), embeddedArraySize enc ls n = some s →
    s = n + listsBytes enc ls
  | .nil, n, s, h => by
    rw [embeddedArraySize, Option.some_inj] at h
    rw [← h, listsBytes, Nat.add_zero]
  | .cons l rest, n, s, h => by
    obtain ⟨size, hsize, hrest⟩ := bind_bound_eq_some h
    rw [embeddedArraySize_eq rest _ _ hrest, getsizePairs_eq l _ _ hsize, listsBytes]
    omega

end

end SizePass

/-! ## What `nvlist_add_common` guarantees -/

section Added

theorem nvAlign_mono {a b : ℕ} (h : a ≤ b) : nvAlign a ≤ nvAlign b := by
  unfold nvAlign
  omega

theorem le_nvAlign4 (x : ℕ) : x ≤ nvAlign4 x := by
  unfold nvAlign4
  omega

theorem valueSizeNull_le_dataSize (v : Value) : valueSizeNull v.type v.nelem ≤ v.dataSize := by
  cases v with
  | string s => exact Nat.zero_le _
  | stringArray strs =>
    show strs.length * 8 ≤ _
    exact Nat.le_add_right _ _
  | _ => exact Nat.le_refl _

theorem Value.getValueSize_isSome_iff {v : Value} :
    v.getValueSize.isSome ↔ iValidateTypeNelem v.type v.nelem = true ∧ v.dataSize ≤ int32Max := by
  unfold Value.getValueSize
  by_cases hv : iValidateTypeNelem v.type v.nelem = true
  · by_cases hs : int32Max < v.dataSize
    · simp [hv, hs]
    · simp [hv, hs, Nat.le_of_not_lt hs]
  · simp [hv]

theorem Value.Added.getValueSize {v : Value} (hv : v.Added) : v.getValueSize.isSome := by
  cases v with
  | plain t n => exact hv.2
  | string s => exact hv
  | stringArray strs => exact hv
  | nvlist l => rfl
  | nvlistArray ls => exact hv.1

/-- The value size without the strings of a value `nvlist_add_common` took
is valid too: it is at most the size with them. -/
theorem iGetValueSize_of_added {v : Value} (hv : v.Added) :
    iGetValueSize v.type v.nelem = some (valueSizeNull v.type v.nelem) := by
  obtain ⟨hvalid, hsize⟩ := Value.getValueSize_isSome_iff.1 hv.getValueSize
  have hle := valueSizeNull_le_dataSize v
  unfold iGetValueSize
  rw [if_neg (by simp [hvalid]), if_neg (by omega)]

theorem nativeNvpValid_of_added {name : List Char} {v : Value} (hv : v.Added) :
    nativeNvpValid name v = true := by
  have hnull := nvAlign_mono (valueSizeNull_le_dataSize v)
  have hzero : nvAlign 0 ≤ nvAlign v.dataSize := nvAlign_mono (Nat.zero_le _)
  unfold nativeNvpValid
  rw [iGetValueSize_of_added hv]
  simp only [nvpSize, nvpSizeCalc, Bool.and_eq_true]
  exact ⟨decide_eq_true (by omega), decide_eq_true (by omega)⟩

end Added

/-! ## The native encoding writes what the size pass counts -/

section Native

theorem nativeNvlist_writes (flag : Bool) :
    Writes .noRoom (nativeNvlist flag) (nvlistWords .native flag - 4) := by
  cases flag with
  | false => exact (writes_put _ 4).bind (writes_put _ 4)
  | true => exact writes_ok

theorem nativeNvpCopy_writes {name : List Char} {v : Value} (hv : v.Added) :
    Writes .noRoom (nativeNvpCopy name v) (nvpSize name v) := by
  refine (writes_put PackFault.noRoom (nvpSize name v)).congr fun cap c _ => ?_
  unfold nativeNvpCopy
  rw [nativeNvpValid_of_added hv]
  exact bind_pure _

mutual

theorem nativeEncodePairs_writes : ∀ (l : Pairs), l.Added →
    Writes .noRoom (fun cap c => nativeEncodePairs cap l c) (pairsBytes .native l + 4)
  | .nil, _ => writes_put PackFault.noRoom 4
  | .cons name v rest, ⟨hv, hrest⟩ =>
    (((nativeNvpOp_writes name v hv).mapError rfl).bind
      (nativeEncodePairs_writes rest hrest)).congr_bytes (by rw [pairsBytes]; omega)

theorem nativeNvpOp_writes (name : List Char) : ∀ (v : Value), v.Added →
    Writes .noRoom (fun cap c => nativeNvpOp cap name v c) (valueBytes .native name v)
  | .nvlist l, hl =>
    ((nativeNvpCopy_writes (v := .nvlist l) hl).bind ((nativeNvlist_writes true).bind
      (nativeEncodePairs_writes l hl))).congr_bytes
      (by simp only [valueBytes, ownBytes, nvlistWords]; omega)
  | .nvlistArray ls, hls =>
    (nativeNvpCopy_writes hls).bind (nativeEmbeddedArray_writes ls hls.2)
  | .plain t n, hv => nativeNvpCopy_writes hv
  | .string str, hv => nativeNvpCopy_writes hv
  | .stringArray strs, hv => nativeNvpCopy_writes hv

theorem nativeEmbeddedArray_writes : ∀ (ls : Lists), ls.Added →
    Writes .noRoom (fun cap c => nativeEmbeddedArray cap ls c) (listsBytes .native ls)
  | .nil, _ => writes_ok
  | .cons l rest, ⟨hl, hrest⟩ =>
    ((((nativeNvlist_writes true).bind (nativeEncodePairs_writes l hl)).mapError rfl).bind
      (nativeEmbeddedArray_writes rest hrest)).congr_bytes
      (by simp only [listsBytes, nvlistWords]; omega)

end

end Native

/-! ## The XDR encoding writes at most what the size pass counts -/

section Xdr

theorem xdrPut_writes (k : ℕ) : Writes .noRoom (xdrPut k) k := writes_put _ k

theorem xdrHyper_writes : Writes .noRoom xdrHyper 8 := (xdrPut_writes 4).bind (xdrPut_writes 4)

theorem xdrNvlist_writes : Writes .noRoom xdrNvlist 8 := (xdrPut_writes 4).bind (xdrPut_writes 4)

theorem xdrNvlFini_writes : Writes .noRoom xdrNvlFini 8 := (xdrPut_writes 4).bind (xdrPut_writes 4)

theorem xdrOpaque_writes (cnt : ℕ) : Writes .noRoom (xdrOpaque cnt) (nvAlign4 cnt) :=
  ((xdrPut_writes cnt).bind (xdrPut_writes _)).congr_bytes (by have := le_nvAlign4 cnt; omega)

theorem xdrString_writes {s : List Char} {maxsize : ℕ} (h : s.length ≤ maxsize) :
    Writes .noRoom (xdrString s maxsize) (4 + nvAlign4 s.length) := by
  refine ((xdrPut_writes 4).bind (xdrOpaque_writes s.length)).congr fun cap c _ => ?_
  unfold xdrString
  simp only [if_neg (Nat.not_lt.2 h)]

theorem xdrArray_writes {nelem maxsize : ℕ} (elsize : ℕ) (h : nelem ≤ maxsize) :
    Writes .noRoom (xdrArray nelem maxsize elsize) (4 + nelem * elsize) := by
  refine ((xdrPut_writes 4).bind (writes_putMany elsize nelem)).congr fun cap c _ => ?_
  unfold xdrArray
  simp only [if_neg (Nat.not_lt.2 h)]

/-- The string array loop writes each string's count and bytes, as long as
the pair holds what is left to step over. -/
theorem xdrStrings_writes : ∀ (strs : List (List Char)) (buflen len : ℕ),
    len + (strs.map fun s => s.length + 1).sum ≤ buflen →
    Writes .noRoom (fun cap c => xdrStrings cap strs buflen len c)
      (strs.map fun s => 4 + nvAlign4 s.length).sum
  | [], _, _, _ => writes_ok
  | s :: rest, buflen, len, h => by
    simp only [List.map_cons, List.sum_cons] at h ⊢
    have hrest := xdrStrings_writes rest (buflen - len) (s.length + 1) (by omega)
    have hs : Writes .noRoom (xdrString s (buflen - len - 1)) (4 + nvAlign4 s.length) :=
      xdrString_writes (by omega)
    refine (hs.bind hrest).congr fun cap c _ => ?_
    rw [xdrStrings, if_neg (by omega)]

theorem xdrPlainValue_writes {t : DataType} {n buflen : ℕ} (ht : isPlainType t = true)
    (hv : iValidateTypeNelem t n = true) (hb : valueSizeNull t n ≤ buflen) :
    ∃ w, xdrPlainSize t n = some w ∧
      Writes .noRoom (fun cap c => xdrPlainValue t n buflen cap c) w := by
  cases t with
  | boolean => exact ⟨0, rfl, writes_ok⟩
  | byte | int8 | uint8 | int16 | uint16 | booleanValue | int32 | uint32 =>
    exact ⟨4, rfl, xdrPut_writes 4⟩
  | int64 | uint64 | hrtime => exact ⟨8, rfl, xdrHyper_writes⟩
  | byteArray => exact ⟨_, rfl, xdrOpaque_writes n⟩
  | int8Array | uint8Array =>
    simp only [valueSizeNull] at hb
    exact ⟨_, rfl, (xdrArray_writes 4 hb).congr_bytes (by omega)⟩
  | int16Array | uint16Array =>
    simp only [valueSizeNull] at hb
    exact ⟨_, rfl, (xdrArray_writes 4 (by omega)).congr_bytes (by omega)⟩
  | booleanArray | int32Array | uint32Array =>
    simp only [valueSizeNull] at hb
    exact ⟨_, rfl, (xdrArray_writes 4 (by omega)).congr_bytes (by omega)⟩
  | int64Array | uint64Array =>
    simp only [valueSizeNull] at hb
    exact ⟨_, rfl, (xdrArray_writes 8 (by omega)).congr_bytes (by omega)⟩
  | string | stringArray | nvlist | nvlistArray => cases ht
  | unknown | double => cases hv

/-- A value `nvlist_add_common` took with elements takes room in the pair. -/
theorem dataSize_pos {v : Value} (hv : v.Added) (hn : v.nelem ≠ 0) : 0 < v.dataSize := by
  have hvalid := (Value.getValueSize_isSome_iff.1 hv.getValueSize).1
  cases v with
  | plain t n =>
    have ht := hv.1
    simp only [Value.nelem] at hn
    cases t
    case boolean => exact absurd (of_decide_eq_true hvalid) hn
    all_goals
      simp [Value.dataSize, Value.type, Value.nelem, valueSizeNull, iValidateTypeNelem,
        isPlainType] at ht hvalid ⊢ <;> omega
  | string str => exact Nat.succ_pos _
  | stringArray strs =>
    simp only [Value.nelem] at hn
    simp only [Value.dataSize]
    omega
  | nvlist l =>
    show 0 < 24
    decide
  | nvlistArray ls =>
    simp only [Value.nelem] at hn
    simp only [Value.dataSize, Value.type, Value.nelem, valueSizeNull]
    omega

theorem xdrNvpHead_writes {name : List Char} {v : Value} (hs : (nvsNvpSize .xdr name v).isSome) :
    Writes .noRoom (xdrNvpHead name v) (4 + 4 + 4 + nvAlign4 name.length + 4 + 4) := by
  obtain ⟨sz, hsz⟩ := Option.isSome_iff_exists.1 hs
  have hname : name.length ≤ nvpSize name v - 16 - 1 := by
    have := le_nvAlign (16 + (name.length + 1))
    unfold nvpSize nvpSizeCalc
    omega
  have hstr : Writes .noRoom (xdrString name (nvpSize name v - 16 - 1)) (4 + nvAlign4 name.length) :=
    xdrString_writes hname
  refine ((xdrPut_writes 4).bind ((xdrPut_writes 4).bind (hstr.bind
    ((xdrPut_writes 4).bind (xdrPut_writes 4))))).congr_bytes (by omega) |>.congr
    fun cap c _ => ?_
  have h16 : ¬nvpSize name v ≤ 16 := by
    have := le_nvAlign (16 + (name.length + 1))
    unfold nvpSize nvpSizeCalc
    omega
  unfold xdrNvpHead
  rw [hsz]
  simp only [if_neg h16]

/-- The checks of the room after `NVP_VALUE` pass for a value
`nvlist_add_common` took, whose room is its aligned size. -/
theorem xdrNvpValue_atMost (name : List Char) {v : Value} (hv : v.Added) {b : ℕ}
    {value : ℕ → ℕ → ℕ → Except PackFault ℕ}
    (hval : ∀ buflen, v.dataSize ≤ buflen →
      WritesAtMost .noRoom (fun cap c => value cap buflen c) b) :
    WritesAtMost .noRoom (fun cap c => xdrNvpValue name v (value cap) c) b := by
  by_cases hn : v.nelem = 0
  · refine (writes_ok.atMost (Nat.zero_le b)).congr fun cap c _ => ?_
    unfold xdrNvpValue
    rw [iGetValueSize_of_added hv]
    dsimp only
    rw [if_pos hn]
    rfl
  · have hpos := dataSize_pos hv hn
    have hnull := nvAlign_mono (valueSizeNull_le_dataSize v)
    have halign := le_nvAlign v.dataSize
    have hnull' := le_nvAlign (valueSizeNull v.type v.nelem)
    have hroom : nvpSize name v - nvAlign (16 + (name.length + 1)) = nvAlign v.dataSize := by
      unfold nvpSize nvpSizeCalc
      omega
    refine (hval (nvAlign v.dataSize) halign).congr fun cap c _ => ?_
    unfold xdrNvpValue
    rw [iGetValueSize_of_added hv]
    dsimp only
    rw [if_neg hn, if_neg (by omega), hroom, if_neg (by omega)]

theorem xdrNvpHead_atMost {name : List Char} {v : Value} {s : ℕ}
    (hs : nvsNvpSize .xdr name v = some s) :
    WritesAtMost .noRoom (xdrNvpHead name v) (4 + 4 + 4 + nvAlign4 name.length + 4 + 4) :=
  (xdrNvpHead_writes (Option.isSome_iff_exists.2 ⟨s, hs⟩)).atMost (Nat.le_refl _)

mutual

/-- The XDR encoding of a list whose size pass succeeded writes at most what
that pass counted for its pairs, with the two end words. -/
theorem xdrEncodePairs_writes : ∀ (l : Pairs) (n s : ℕ), l.Added → getsizePairs .xdr l n = some s →
    WritesAtMost .noRoom (fun cap c => xdrEncodePairs cap l c) (pairsBytes .xdr l + 8)
  | .nil, _, _, _, _ => xdrNvlFini_writes.atMost (Nat.le_add_left 8 _)
  | .cons name v rest, n, s, ⟨hv, hrest⟩, h => by
    obtain ⟨size, hsize, hrest'⟩ := bind_bound_eq_some h
    exact (((xdrNvpair_writes name v size hv hsize).mapError rfl).bind
      (xdrEncodePairs_writes rest _ _ hrest hrest')).mono (by rw [pairsBytes]; omega)

theorem xdrNvpair_writes (name : List Char) : ∀ (v : Value) (s : ℕ), v.Added →
    nvsNvpSize .xdr name v = some s →
    WritesAtMost .noRoom (fun cap c => xdrNvpair cap name v c) (valueBytes .xdr name v)
  | .nvlist l, s, hl, h => by
    obtain ⟨nested, hnested, -⟩ := Option.bind_eq_some_iff.1 h
    have hval := xdrNvpValue_atMost name (v := .nvlist l) hl fun _ _ =>
      ((xdrNvlist_writes.atMost (Nat.le_refl 8)).bind
        (xdrEncodePairs_writes l _ _ hl hnested)).mapError (t := toEfault) rfl
    exact ((xdrNvpHead_atMost h).bind hval).mono
      (by simp only [valueBytes, ownBytes, xdrValueSize, Option.getD_some, nvlistWords]; omega)
  | .nvlistArray ls, s, hls, h => by
    obtain ⟨nested, hnested, -⟩ := Option.bind_eq_some_iff.1 h
    have hval := xdrNvpValue_atMost name (v := .nvlistArray ls) hls fun _ _ =>
      xdrEmbeddedArray_writes ls _ _ hls.2 hnested
    exact ((xdrNvpHead_atMost h).bind hval).mono
      (by simp only [valueBytes, ownBytes, xdrValueSize, Option.getD_some]; omega)
  | .plain t n, s, hv, h => by
    have hvalid := (Value.getValueSize_isSome_iff.1 hv.getValueSize).1
    obtain ⟨w, hw, -⟩ := xdrPlainValue_writes hv.1 hvalid (Nat.le_refl (valueSizeNull t n))
    change xdrPlainSize t n = some w at hw
    have hval := xdrNvpValue_atMost name (v := .plain t n) (b := w) hv fun buflen hb => by
      obtain ⟨w', hw', hwr⟩ := xdrPlainValue_writes hv.1 hvalid hb
      exact hwr.atMost (Nat.le_of_eq (Option.some_inj.1 (hw'.symm.trans hw)))
    exact ((xdrNvpHead_atMost h).bind hval).mono
      (by simp only [valueBytes, ownBytes, xdrValueSize]; rw [hw, Option.getD_some] <;> omega)
  | .string str, s, hv, h => by
    have hval := xdrNvpValue_atMost name (v := .string str) hv fun buflen hb =>
      have hstr : Writes .noRoom (xdrString str (buflen - 1)) (4 + nvAlign4 str.length) :=
        xdrString_writes (by simp only [Value.dataSize] at hb; omega)
      hstr.atMost (Nat.le_refl _)
    exact ((xdrNvpHead_atMost h).bind hval).mono
      (by simp only [valueBytes, ownBytes, xdrValueSize, Option.getD_some]; omega)
  | .stringArray strs, s, hv, h => by
    have hval := xdrNvpValue_atMost name (v := .stringArray strs) hv fun buflen hb =>
      (xdrStrings_writes strs buflen _ hb).atMost (Nat.le_refl _)
    exact ((xdrNvpHead_atMost h).bind hval).mono
      (by simp only [valueBytes, ownBytes, xdrValueSize, Option.getD_some]; omega)

theorem xdrEmbeddedArray_writes : ∀ (ls : Lists) (n s : ℕ), ls.Added →
    embeddedArraySize .xdr ls n = some s →
    WritesAtMost .noRoom (fun cap c => xdrEmbeddedArray cap ls c) (listsBytes .xdr ls)
  | .nil, _, _, _, _ => writes_ok.atMost (Nat.zero_le _)
  | .cons l rest, n, s, ⟨hl, hrest⟩, h => by
    obtain ⟨size, hsize, hrest'⟩ := bind_bound_eq_some h
    exact ((((xdrNvlist_writes.atMost (Nat.le_refl 8)).bind
      (xdrEncodePairs_writes l _ _ hl hsize)).mapError rfl).bind
      (xdrEmbeddedArray_writes rest _ _ hrest hrest')).mono
      (by simp only [listsBytes, nvlistWords]; omega)

end

end Xdr

/-! ## `nvlist_xpack` has the room it sized -/

theorem nvlistEncode_of_writes (enc : Encoding) {l : Pairs} {s w : ℕ}
    (hw : Writes .noRoom (fun cap c =>
      match enc with
      | .native => nativeNvlist false cap c >>= nativeEncodePairs cap l
      | .xdr => xdrNvlist cap c >>= xdrEncodePairs cap l) w)
    (hs : 4 + w ≤ s) : nvlistEncode enc l s = .ok (4 + w) := by
  have hok := hw (s - 4) 0 (Nat.zero_le _)
  rw [put_of_le (by omega), Nat.zero_add] at hok
  unfold nvlistEncode
  rw [if_neg (by omega)]
  cases enc <;> (dsimp only at hok ⊢; rw [hok]; rfl)

/-- `nvlist_xpack` never runs out of the room `nvlist_size` gave it: for every
nvlist `nvlist_add_common` built and both encodings, once the size pass
succeeds the encoding into a buffer of that size succeeds, writing no more
than the size, and for the native encoding exactly the size. -/
theorem nvlistXpack_size_agrees (enc : Encoding) (l : Pairs) (hl : l.Added) {s : ℕ}
    (hs : nvlistSize enc l = some s) :
    nvlistXpack enc l = .ok s ∧
      ∃ w, nvlistEncode enc l s = .ok w ∧ w ≤ s ∧ (enc = .native → w = s) := by
  have hsum := getsizePairs_eq l _ _ hs
  have henc : ∃ w, nvlistEncode enc l s = .ok w ∧ w ≤ s ∧ (enc = .native → w = s) := by
    cases enc with
    | native =>
      have hw := (nativeNvlist_writes false).bind (nativeEncodePairs_writes l hl)
      simp only [nvlistWords] at hsum hw
      have hok := nvlistEncode_of_writes .native (s := s) hw (by omega)
      exact ⟨_, hok, by omega, fun _ => by omega⟩
    | xdr =>
      obtain ⟨w, hwb, hw⟩ :=
        (xdrNvlist_writes.atMost (Nat.le_refl 8)).bind (xdrEncodePairs_writes l _ _ hl hs)
      simp only [nvlistWords] at hsum
      exact ⟨_, nvlistEncode_of_writes .xdr (s := s) hw (by omega), by omega, nofun⟩
  refine ⟨?_, henc⟩
  obtain ⟨w, hw, -⟩ := henc
  unfold nvlistXpack
  rw [hs]
  dsimp only
  rw [hw]
  rfl

/-- The list `{"a": (uint64_t)1}`: 48 bytes, natively packed into exactly those. -/
theorem nvlistXpack_uint64_pair :
    (Pairs.cons ['a'] (.plain .uint64 1) .nil).Added ∧
      nvlistSize .native (.cons ['a'] (.plain .uint64 1) .nil) = some 48 ∧
      nvlistXpack .native (.cons ['a'] (.plain .uint64 1) .nil) = .ok 48 :=
  have hl : (Pairs.cons ['a'] (.plain .uint64 1) .nil).Added := ⟨⟨rfl, rfl⟩, trivial⟩
  have hs : nvlistSize .native (.cons ['a'] (.plain .uint64 1) .nil) = some 48 := rfl
  ⟨hl, hs, (nvlistXpack_size_agrees .native _ hl hs).1⟩

end ZfsOsx.Nvpair.Pack
