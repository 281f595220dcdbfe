import ZfsOsx.Lib.CString

/-!
# Embedded-name lookup (`module/nvpair/nvpair.c`)

`nvlist_lookup_nvpair_ei_sep` resolves a name such as `"a.b[2].c"` in an
nvlist: each component is a pair name, optionally followed by `[index]`, and
each component but the last must name an embedded nvlist, or an nvlist array
whose element at the index is searched next. The name is scanned in place
with `strchr`, `strtol` and the blank skipping of `skip_whitespace`, and the
positions below are offsets into it.

The index is a `long` from `strtol` and is checked against the array's
element count only from above, so a negative index passes the check and
`nva[idx]` reads before the array (`lookupLoop_outOfBounds`).

* `parseComponent_next`: a component that is followed by another ends
  before it, which is why the loop ends (`lookupLoop_isSome`).
* `lookupLoop_outOfBounds`: an element outside the array is reached only by a
  negative index, and `embedded_index_negative_reads_before` is a name that
  reaches one.
-/
namespace ZfsOsx.Nvpair

open CString

/-- `data_type_t` (sys/nvpair.h:42-75). -/
inductive DataType
  | unknown | boolean | byte | int16 | uint16 | int32 | uint32 | int64 | uint64 | string
  | byteArray | int16Array | uint16Array | int32Array | uint32Array | int64Array | uint64Array
  | stringArray | hrtime | nvlist | nvlistArray | booleanValue | int8 | uint8 | booleanArray
  | int8Array | uint8Array | double
  deriving DecidableEq, Repr

mutual

/-- The value of a pair: an embedded nvlist, an nvlist array, or a value of
another type, which the lookup does not descend into. -/
inductive NvValue where
  | nvlist (l : NvList)
  | nvlistArray (ls : List NvList)
  | other (t : DataType) (ht : t ≠ .nvlist ∧ t ≠ .nvlistArray)

/-- An nvlist: `nvl_nvflag` and its pairs in the order
`nvlist_next_nvpair` visits them, each a name and a value. -/
inductive NvList where
  | mk (nvflag : ℕ) (pairs : List (List Char × NvValue))

end

def NvList.nvflag : NvList → ℕ
  | .mk f _ => f

def NvList.pairs : NvList → List (List Char × NvValue)
  | .mk _ ps => ps

/-- `NV_UNIQUE_NAME` (sys/nvpair.h:105). -/
def nvUniqueName : ℕ := 0x1

/-- `nvpair_type(nvp)`. -/
def NvValue.type : NvValue → DataType
  | .nvlist _ => .nvlist
  | .nvlistArray _ => .nvlistArray
  | .other t _ => t

/-- `nvpair_type_is_array`: the array types it lists, which leave out
`DATA_TYPE_INT8_ARRAY`.
mirrors module/nvpair/nvpair.c:1228-1247 -/
def nvpairTypeIsArray (v : NvValue) : Bool :=
  v.type ∈ [.byteArray, .uint8Array, .int16Array, .uint16Array, .int32Array, .uint32Array,
    .int64Array, .uint64Array, .booleanArray, .stringArray, .nvlistArray]

/-- `skip_whitespace(p)`: the number of blanks and tabs at `p`.
mirrors module/nvpair/nvpair.c:49 -/
def skipWhitespace (s : List Char) : ℕ := countWhile (fun c => c = ' ' || c = '\t') s

/-- `for (n--; (np[n] == ' ') || (np[n] == '\t'); n--); n++;`: the length of
the component at `np` without its trailing blanks. The first character is
not blank, so the C loop stops before `np[-1]`.
mirrors module/nvpair/nvpair.c:1698-1700 -/
def trimLen (s : List Char) (np : ℕ) : ℕ → ℕ
  | 0 => 0
  | n + 1 => if charAt s (np + n) = ' ' ∨ charAt s (np + n) = '\t' then trimLen s np n else n + 1

/-- What one turn of the loop makes of the component at `np`. -/
inductive Component
  /-- `*np == 0` after the blanks: the loop's `break`. -/
  | stop
  /-- `goto fail`, with `sepp` for `*ep`. -/
  | fail (sepp : Option ℕ)
  /-- The component `np[0 .. n)`, its index if it has one, and `sepp`: the
  next component, or `none` when this one is the last. -/
  | comp (np n : ℕ) (index : Option ℤ) (sepp : Option ℕ)

/-- The end of a turn's parse: `n == 0` fails, trailing blanks are trimmed,
and `sepp` moves past blanks and becomes NULL at the end of the name.
mirrors module/nvpair/nvpair.c:1695-1708 -/
def componentEnd (name : List Char) (np n : ℕ) (index : Option ℤ) (sepp : Option ℕ) : Component :=
  if n = 0 then .fail sepp
  else
    let sepp := sepp.bind fun r =>
      let r := r + skipWhitespace (name.drop r)
      if charAt name r = nul then none else some r
    .comp np (trimLen name np n) index sepp

/-- The parse of one component from `np`: the separator, the `[ index ]` with
its `strtol`, and the separator that may follow the `]`.
mirrors module/nvpair/nvpair.c:1634-1693 -/
def parseComponent (name : List Char) (sep : Char) (np : ℕ) : Component :=
  let np := np + skipWhitespace (name.drop np)
  if charAt name np = nul then .stop
  else
    let sepp := if sep = nul then none else (strchr sep (name.drop np)).map (np + ·)
    -- `if (sepp && idxp && (sepp < idxp)) idxp = NULL;`
    let idxp := ((strchr '[' (name.drop np)).map (np + ·)).filter fun b => !(sepp.any (· < b))
    match idxp with
    | some b =>
      let ip := b + 1 + skipWhitespace (name.drop (b + 1))
      let r := strtol (name.drop ip)
      if r.2 = 0 then .fail (some ip)
      else
        let q := ip + r.2 + skipWhitespace (name.drop (ip + r.2))
        -- `if (*sepp++ != ']') goto fail;` moves `sepp` past the character
        if charAt name q ≠ ']' then .fail (some (q + 1))
        else
          let e := q + 1 + skipWhitespace (name.drop (q + 1))
          componentEnd name np (b - np) (some r.1)
            (some (if sep ≠ nul ∧ charAt name e = sep then e + 1 else e))
    | none =>
      match sepp with
      | some a => componentEnd name np (a - np) none (some (a + 1))
      | none => componentEnd name np (strlen (name.drop np)) none none

/-- What `nvlist_lookup_nvpair_ei_sep` returns. -/
inductive LookupResult where
  /-- 0, with `*ret` the pair and `*ip` the last component's index, -1 when it
  has none. -/
  | found (name : List Char) (v : NvValue) (ip : ℤ)
  /-- `EINVAL`, with `*ep`. -/
  | einval (ep : Option ℕ)
  /-- `ENOTSUP`: an nvlist on the way allows duplicate names. -/
  | enotsup
  /-- `nva[idx]` for an index outside an array of `nelem` elements: the C
  reads outside the array and goes on with what it finds there. -/
  | outOfBounds (idx : ℤ) (nelem : ℕ)

/-- What one turn of the loop does: return, or go on to the component at
`np` of the nvlist `nvl`. -/
inductive Turn where
  | done (r : LookupResult)
  | next (nvl : NvList) (np : ℕ) (idx : ℤ)

/-- One turn of the loop over the components of `name`, in `nvl`, from `np`,
with the `long idx` of the last index read and `sepp`.
mirrors module/nvpair/nvpair.c:1630-1764 -/
def lookupTurn (name : List Char) (sep : Char) (nvl : NvList) (np : ℕ) (idx : ℤ)
    (sepp : Option ℕ) : Turn :=
  if charAt name np = nul then .done (.einval sepp)
  else if nvl.nvflag &&& nvUniqueName = 0 then .done .enotsup
  else
    match parseComponent name sep np with
    | .stop => .done (.einval sepp)
    | .fail ep => .done (.einval ep)
    | .comp np n index sepp =>
      let idx := index.getD idx
      match nvl.pairs.find? (fun p => p.1 = (name.drop np).take n) with
      | none => .done (.einval sepp)
      | some (nm, v) =>
        if index.isSome ∧ nvpairTypeIsArray v = false then .done (.einval sepp)
        else
          match sepp with
          | none => .done (.found nm v (if index.isSome then Int.bmod idx (2 ^ 32) else -1))
          | some r =>
            match v with
            | .nvlist l => .next l r idx
            | .nvlistArray ls =>
              -- `n` is the `uint_t` element count read as an `int`
              let n := Int.bmod ls.length (2 ^ 32)
              if n < 0 ∨ idx ≥ n then .done (.einval sepp)
              else if idx < 0 then .done (.outOfBounds idx ls.length)
              else
                match ls[idx.toNat]? with
                | some l => .next l r idx
                | none => .done (.outOfBounds idx ls.length)
            | .other _ _ => .done (.einval sepp)

/-- The loop: turns until one returns. Each turn moves `np` forward, so
`name.length + 1` turns are enough (`lookupLoop_isSome`); `fuel` counts them.
mirrors module/nvpair/nvpair.c:1630-1767 -/
def lookupLoop (name : List Char) (sep : Char) :
    ℕ → NvList → ℕ → ℤ → Option ℕ → Option LookupResult
  | 0, _, _, _, _ => none
  | fuel + 1, nvl, np, idx, sepp =>
    match lookupTurn name sep nvl np idx sepp with
    | .done r => some r
    | .next nvl np idx => lookupLoop name sep fuel nvl np idx (some np)

/-- `nvlist_lookup_nvpair_ei_sep(nvl, name, sep, ret, ip, ep)`; `none` for a
NULL list or name.
mirrors module/nvpair/nvpair.c:1608-1768 -/
def nvlistLookupNvpairEiSep (nvl : Option NvList) (name : Option (List Char)) (sep : Char) :
    Option LookupResult :=
  match nvl, name with
  | some nvl, some name => lookupLoop name sep (name.length + 1) nvl 0 0 none
  | _, _ => some (.einval none)

/-- `nvlist_lookup_nvpair_embedded_index`: the lookup with `.` between
components.
mirrors module/nvpair/nvpair.c:1784-1788 -/
def nvlistLookupNvpairEmbeddedIndex (nvl : Option NvList) (name : Option (List Char)) :
    Option LookupResult :=
  nvlistLookupNvpairEiSep nvl name '.'

/-! ## The loop ends -/

/-- The next component starts after the end of this one, inside the name. -/
theorem componentEnd_next {name : List Char} {np n np' n' : ℕ} {index index' : Option ℤ}
    {sepp : Option ℕ} {r : ℕ} (h : componentEnd name np n index sepp = .comp np' n' index' (some r)) :
    ∃ x, sepp = some x ∧ x ≤ r ∧ r < name.length := by
  unfold componentEnd at h
  split_ifs at h
  cases h' : sepp with
  | none =>
    rw [h'] at h
    cases h
  | some x =>
    rw [h'] at h
    simp only [Component.comp.injEq, Option.bind_some] at h
    obtain ⟨-, -, -, hr⟩ := h
    split_ifs at hr with hnul
    cases hr
    exact ⟨x, rfl, Nat.le_add_right _ _, lt_length_of_charAt_ne hnul⟩

/-- A component followed by another ends before it: every path that sets
`sepp` leaves it past the start of the component. -/
theorem parseComponent_next {name : List Char} {sep : Char} {np np' n : ℕ} {index : Option ℤ}
    {r : ℕ} (h : parseComponent name sep np = .comp np' n index (some r)) :
    np < r ∧ r < name.length := by
  unfold parseComponent at h
  dsimp only at h
  generalize hnp : np + skipWhitespace (name.drop np) = np₁ at h
  by_cases hc : charAt name np₁ = nul
  · rw [if_pos hc] at h
    cases h
  rw [if_neg hc] at h
  -- `strchr` finds the separator and the `[` at or after `np`
  generalize hS : (if sep = nul then none else (strchr sep (name.drop np₁)).map (np₁ + ·)) = sepp at h
  generalize hI : Option.filter _ ((strchr '[' (name.drop np₁)).map (np₁ + ·)) = idxp at h
  have hidxp : ∀ b, idxp = some b → np₁ ≤ b := by
    rintro b rfl
    obtain ⟨hb, -⟩ := Option.filter_eq_some_iff.1 hI
    obtain ⟨off, -, rfl⟩ := Option.map_eq_some_iff.1 hb
    omega
  cases idxp with
  | some b =>
    -- an index: `sepp` is past the `]`, with or without a separator after it
    have hb := hidxp b rfl
    dsimp only at h
    split_ifs at h
    all_goals
      obtain ⟨x, hx, hxr, hr⟩ := componentEnd_next h
      cases hx
      omega
  | none =>
    cases sepp with
    | some a =>
      have ha : np₁ ≤ a := by
        split_ifs at hS
        obtain ⟨off, -, rfl⟩ := Option.map_eq_some_iff.1 hS
        omega
      obtain ⟨x, hx, hxr, hr⟩ := componentEnd_next h
      cases hx
      omega
    | none =>
      obtain ⟨x, hx, -, -⟩ := componentEnd_next h
      cases hx

/-- A turn that goes on moves to a later component inside the name. -/
theorem lookupTurn_next {name : List Char} {sep : Char} {nvl nvl' : NvList} {np np' : ℕ}
    {idx idx' : ℤ} {sepp : Option ℕ} (h : lookupTurn name sep nvl np idx sepp = .next nvl' np' idx') :
    np < np' ∧ np' < name.length := by
  unfold lookupTurn at h
  by_cases h0 : charAt name np = nul
  · rw [if_pos h0] at h
    cases h
  rw [if_neg h0] at h
  by_cases h1 : nvl.nvflag &&& nvUniqueName = 0
  · rw [if_pos h1] at h
    cases h
  rw [if_neg h1] at h
  cases hp : parseComponent name sep np with
  | stop =>
    rw [hp] at h
    cases h
  | fail ep =>
    rw [hp] at h
    cases h
  | comp np₁ n index sepp' =>
    rw [hp] at h
    dsimp only at h
    split at h
    · cases h
    · rename_i nm v _
      by_cases harr : index.isSome ∧ nvpairTypeIsArray v = false
      · rw [if_pos harr] at h
        cases h
      rw [if_neg harr] at h
      -- both ways on, into an nvlist or an array element, go to `sepp`
      cases sepp' with
      | none => cases h
      | some r =>
        cases v with
        | nvlist l =>
          cases h
          exact parseComponent_next hp
        | nvlistArray ls =>
          dsimp only at h
          by_cases hn : Int.bmod ls.length (2 ^ 32) < 0 ∨ index.getD idx ≥ Int.bmod ls.length (2 ^ 32)
          · rw [if_pos hn] at h
            cases h
          rw [if_neg hn] at h
          by_cases hneg : index.getD idx < 0
          · rw [if_pos hneg] at h
            cases h
          rw [if_neg hneg] at h
          split at h
          · cases h
            exact parseComponent_next hp
          · cases h
        | other t ht => cases h

/-- With a turn for each position of the name, the loop returns. -/
theorem lookupLoop_isSome (name : List Char) (sep : Char) :
    ∀ fuel nvl np idx sepp, name.length - np < fuel →
      (lookupLoop name sep fuel nvl np idx sepp).isSome := by
  intro fuel
  induction fuel with
  | zero => intro _ _ _ _ h; omega
  | succ fuel ih =>
    intro nvl np idx sepp hfuel
    rw [lookupLoop]
    cases ht : lookupTurn name sep nvl np idx sepp with
    | done r => rfl
    | next nvl' np' idx' =>
      have := lookupTurn_next ht
      exact ih _ _ _ _ (by omega)

/-! ## What the index check lets through -/

/-- The element count read as an `int` is at most the count. -/
theorem bmod_length_le (ls : List NvList) : Int.bmod ls.length (2 ^ 32) ≤ ls.length := by
  rw [Int.bmod_def]
  split <;> omega

/-- A turn reads outside an nvlist array only at a negative index: the check
`idx >= n` keeps every index at or past the end out. -/
theorem lookupTurn_outOfBounds {name : List Char} {sep : Char} {nvl : NvList} {np : ℕ}
    {idx i : ℤ} {sepp : Option ℕ} {m : ℕ}
    (h : lookupTurn name sep nvl np idx sepp = .done (.outOfBounds i m)) : i < 0 := by
  unfold lookupTurn at h
  by_cases h0 : charAt name np = nul
  · rw [if_pos h0] at h
    cases h
  rw [if_neg h0] at h
  by_cases h1 : nvl.nvflag &&& nvUniqueName = 0
  · rw [if_pos h1] at h
    cases h
  rw [if_neg h1] at h
  cases hp : parseComponent name sep np with
  | stop =>
    rw [hp] at h
    cases h
  | fail ep =>
    rw [hp] at h
    cases h
  | comp np₁ n index sepp' =>
    rw [hp] at h
    dsimp only at h
    split at h
    · cases h
    · rename_i nm v _
      by_cases harr : index.isSome ∧ nvpairTypeIsArray v = false
      · rw [if_pos harr] at h
        cases h
      rw [if_neg harr] at h
      cases sepp' with
      | none => cases h
      | some r =>
        cases v with
        | nvlist l => cases h
        | nvlistArray ls =>
          dsimp only at h
          by_cases hn : Int.bmod ls.length (2 ^ 32) < 0 ∨ index.getD idx ≥ Int.bmod ls.length (2 ^ 32)
          · rw [if_pos hn] at h
            cases h
          rw [if_neg hn] at h
          by_cases hneg : index.getD idx < 0
          · rw [if_pos hneg] at h
            cases h
            exact hneg
          rw [if_neg hneg] at h
          -- an index in `[0, n)` names an element
          have hlt : (index.getD idx).toNat < ls.length := by
            have := bmod_length_le ls
            omega
          rw [List.getElem?_eq_getElem hlt] at h
          cases h
        | other t ht => cases h

/-- The whole loop reads outside an nvlist array only at a negative index. -/
theorem lookupLoop_outOfBounds (name : List Char) (sep : Char) :
    ∀ fuel nvl np idx sepp i m, lookupLoop name sep fuel nvl np idx sepp = some (.outOfBounds i m) →
      i < 0 := by
  intro fuel
  induction fuel with
  | zero => intro _ _ _ _ _ _ h; cases h
  | succ fuel ih =>
    intro nvl np idx sepp i m h
    rw [lookupLoop] at h
    cases ht : lookupTurn name sep nvl np idx sepp with
    | done r =>
      rw [ht] at h
      cases h
      exact lookupTurn_outOfBounds ht
    | next nvl' np' idx' =>
      rw [ht] at h
      exact ih _ _ _ _ _ _ h

/-- `"a[-1].b"` in a list whose `a` is an nvlist array of one element:
`strtol` reads -1, which passes `(n < 0) || (idx >= n)`, and the lookup goes on
in `nva[-1]`, before the array. -/
theorem embedded_index_negative_reads_before :
    nvlistLookupNvpairEmbeddedIndex
      (some (.mk 1 [(['a'], .nvlistArray [.mk 1 [(['b'], .other .boolean ⟨by decide, by decide⟩)]])]))
      (some ['a', '[', '-', '1', ']', '.', 'b']) = some (.outOfBounds (-1) 1) := by
  rfl

end ZfsOsx.Nvpair
