import ZfsOsx.Zap.Leaf

/-!
# Leaf arrays (`module/zfs/zap_leaf.c`)

A name or a value in a fat ZAP leaf is an array of integers stored
big-endian in a chain of chunks, 21 bytes of each. `zap_leaf_array_create`
writes the integers' bytes one after the other across the chain, and
`zap_leaf_array_read` reads them back into a buffer whose integers may be
wider than the array's. A chain is the list of its chunks' arrays, each
holding the bytes `zap_leaf_array_create` wrote in it.

The general loop of `zap_leaf_array_read` shifts every byte into one
`value` that it never clears between integers, and stores its low
`buf_int_len` bytes each time `array_int_len` bytes have come in. When the
buffer's integers are wider than the array's, each stored integer keeps
bytes of the ones before it (`readLoop_eq_scanl`): read into 2-byte
integers, the 1-byte array `[1, 2]` comes back as `[1, 258]`
(`zap_leaf_array_read_widened`). `zap_entry_read` lets this happen, since it
refuses only a buffer narrower than the array.

* `zapLeafArrayRead_one_byte`: the fast path for 1-byte arrays returns what
  the general loop would on the first `len` bytes.
-/
namespace ZfsOsx.Zap

/-! ## The model -/

/-- The bytes the create loop writes for one integer of `k` bytes:
`la_array[i] = value >> shift` and `value <<= 8` on a `uint64_t`,
`la_array` keeping the low byte. -/
def createBytes (shift : ℕ) : ℕ → ℕ → List ℕ
  | 0, _ => []
  | k + 1, value => (value >>> shift) % 256 :: createBytes shift k ((value <<< 8) % 2 ^ 64)

/-- One chunk per turn of `while (len > 0)`, 21 bytes each. -/
def createChain : ℕ → List ℕ → List (List ℕ)
  | 0, _ => []
  | k + 1, bytes => bytes.take zapLeafArrayBytes :: createChain k (bytes.drop zapLeafArrayBytes)

/-- `zap_leaf_array_create(l, buf, integer_size, num_integers)`. -/
def zapLeafArrayCreate (integerSize : ℕ) (buf : List ℕ) : List (List ℕ) :=
  createChain (zapLeafArrayNchunks (buf.length * integerSize))
    (buf.flatMap fun v => createBytes ((integerSize - 1) * 8) integerSize v)

/-- `value = (value << 8) | la_array[i]` on a `uint64_t`, over bytes `bs`. -/
def arrayValue (value : ℕ) (bs : List ℕ) : ℕ :=
  bs.foldl (fun v b => (v <<< 8) % 2 ^ 64 ||| b) value

/-- The locals of the general read loop, and the integers stored so far. -/
structure ReadState where
  value : ℕ
  byten : ℕ
  len : ℕ
  out : List ℕ

/-- One byte of the general loop; `stv(buf_int_len, p, value)` stores the
low `buf_int_len` bytes of `value`. Once `len` is 0 the loop has returned. -/
def readByte (arrayIntLen bufIntLen : ℕ) (st : ReadState) (b : ℕ) : ReadState :=
  if st.len = 0 then st
  else
    let value := arrayValue st.value [b]
    if st.byten + 1 = arrayIntLen then ⟨value, 0, st.len - 1, st.out ++ [value % 2 ^ (8 * bufIntLen)]⟩
    else ⟨value, st.byten + 1, st.len, st.out⟩

/-- `while (len > 0)` over the chunks, `for (i = 0; i < 21 && len > 0; i++)`
over each chunk's bytes. -/
def readLoop (arrayIntLen bufIntLen : ℕ) (chain : List (List ℕ)) (len : ℕ) : List ℕ :=
  (chain.foldl (fun (st : ReadState) (la : List ℕ) => la.foldl (readByte arrayIntLen bufIntLen) st)
    ⟨0, 0, len, []⟩).out

/-- `zap_leaf_array_read(l, chunk, array_int_len, array_len, buf_int_len,
buf_len, buf)`: the integers it stores at the start of `buf`. -/
def zapLeafArrayRead (chain : List (List ℕ)) (arrayIntLen arrayLen bufIntLen bufLen : ℕ) :
    List ℕ :=
  let len := min arrayLen bufLen
  -- one 8-byte integer: `ip[0] << 56 | ... | ip[7]` from the first chunk
  if arrayIntLen = 8 ∧ bufIntLen = 8 ∧ len = 1 then [arrayValue 0 ((chain.headD []).take 8)]
  -- 1-byte integers with slack: `bcopy` of every chunk
  else if arrayIntLen = 1 ∧ bufIntLen = 1 ∧ arrayLen + zapLeafArrayBytes < bufLen then chain.flatten
  else readLoop arrayIntLen bufIntLen chain len

/-! ## The general loop -/

theorem scanl_eq_cons_tail {α β : Type} {f : β → α → β} {a : β} (l : List α) :
    l.scanl f a = a :: (l.scanl f a).tail := by
  cases l <;> simp [List.scanl_cons]

section ReadLoop

variable {s t : ℕ}

theorem foldl_readByte_len_zero (bs : List ℕ) (v j : ℕ) (out : List ℕ) :
    bs.foldl (readByte s t) ⟨v, j, 0, out⟩ = ⟨v, j, 0, out⟩ := by
  induction bs with
  | nil => rfl
  | cons b bs ih => simpa [readByte] using ih

/-- The bytes of one integer, from byte `j` of it on: `value` takes them in
and, at the last, its low `buf_int_len` bytes are stored. -/
theorem foldl_readByte_group (g : List ℕ) {v j len : ℕ} (out : List ℕ) (hlen : 0 < len)
    (hg : j + g.length = s) (hne : g ≠ []) :
    g.foldl (readByte s t) ⟨v, j, len, out⟩ =
      ⟨arrayValue v g, 0, len - 1, out ++ [arrayValue v g % 2 ^ (8 * t)]⟩ := by
  induction g generalizing v j with
  | nil => exact absurd rfl hne
  | cons b bs ih =>
    cases bs with
    | nil =>
      -- the integer's last byte: `stv` and the next integer
      have hj : j + 1 = s := by simpa using hg
      simp [readByte, Nat.ne_of_gt hlen, hj, arrayValue]
    | cons b' bs =>
      have hj : j + 1 ≠ s := by
        simp only [List.length_cons] at hg
        omega
      have hstep : readByte s t ⟨v, j, len, out⟩ b = ⟨arrayValue v [b], j + 1, len, out⟩ := by
        simp [readByte, Nat.ne_of_gt hlen, hj]
      rw [List.foldl_cons, hstep, ih (by simp only [List.length_cons] at hg ⊢; omega)
        (List.cons_ne_nil _ _)]
      rfl

/-- Read over integers of `s` bytes each, the loop stores for every
integer the running value of all the bytes so far, cut to `buf_int_len`
bytes: `value` is never cleared between integers. -/
theorem foldl_readByte_groups (gs : List (List ℕ)) (hgs : ∀ g ∈ gs, g.length = s) (hs : 0 < s)
    (v len : ℕ) (out : List ℕ) (hlen : len ≤ gs.length) :
    (gs.flatten.foldl (readByte s t) ⟨v, 0, len, out⟩).out =
      out ++ ((gs.take len).scanl arrayValue v).tail.map (· % 2 ^ (8 * t)) := by
  induction gs generalizing v len out with
  | nil => simp [Nat.le_zero.1 hlen]
  | cons g gs ih =>
    rcases Nat.eq_zero_or_pos len with rfl | hpos
    · simp [foldl_readByte_len_zero]
    have hg : g.length = s := hgs g List.mem_cons_self
    have hne : g ≠ [] := List.ne_nil_of_length_pos (hg ▸ hs)
    rw [List.flatten_cons, List.foldl_append,
      foldl_readByte_group g out hpos (by omega) hne,
      ih (fun g' hg' => hgs g' (List.mem_cons_of_mem _ hg')) _ _ _
        (by simp only [List.length_cons] at hlen; omega)]
    obtain ⟨n, rfl⟩ := Nat.exists_eq_add_of_lt hpos
    rw [Nat.zero_add, List.take_succ_cons, List.scanl_cons, List.tail_cons,
      scanl_eq_cons_tail (List.take n gs), List.map_cons, Nat.add_sub_cancel, List.append_assoc,
      List.singleton_append]

end ReadLoop

/-- The general loop on a chain whose bytes are the integers' groups. -/
theorem readLoop_eq_scanl {chain gs : List (List ℕ)} (hflat : chain.flatten = gs.flatten)
    (hgs : ∀ g ∈ gs, g.length = s) (hs : 0 < s) (t : ℕ) {len : ℕ} (hlen : len ≤ gs.length) :
    readLoop s t chain len = ((gs.take len).scanl arrayValue 0).tail.map (· % 2 ^ (8 * t)) := by
  rw [readLoop, ← List.foldl_flatten, hflat, foldl_readByte_groups gs hgs hs 0 len [] hlen,
    List.nil_append]

/-! ## The fast paths -/

theorem arrayValue_singleton_mod (v : ℕ) {b : ℕ} (hb : b < 256) : arrayValue v [b] % 2 ^ 8 = b := by
  rw [arrayValue, List.foldl_cons, List.foldl_nil, Nat.or_mod_two_pow,
    Nat.mod_mod_of_dvd _ (Nat.pow_dvd_pow 2 (by omega)), Nat.shiftLeft_eq, Nat.mul_mod_left, Nat.zero_or,
    Nat.mod_eq_of_lt (by omega)]

theorem scanl_singletons_mod (bs : List ℕ) (hbs : ∀ b ∈ bs, b < 256) (v : ℕ) :
    ((bs.map fun b => [b]).scanl arrayValue v).tail.map (· % 2 ^ (8 * 1)) = bs := by
  induction bs generalizing v with
  | nil => rfl
  | cons b bs ih =>
    have hb : b < 256 := hbs b List.mem_cons_self
    have ih := ih (fun b' hb' => hbs b' (List.mem_cons_of_mem _ hb'))
    simp only [List.map_cons, List.scanl_cons, List.tail_cons]
    cases bs with
    | nil => simpa using arrayValue_singleton_mod v hb
    | cons b' bs =>
      have := ih (arrayValue v [b])
      simp only [List.map_cons, List.scanl_cons, List.tail_cons] at this ⊢
      rw [this, arrayValue_singleton_mod v hb]

/-- On a chain of bytes, the general loop over 1-byte integers stores the
bytes themselves. -/
theorem readLoop_one_byte {chain : List (List ℕ)} (hb : ∀ b ∈ chain.flatten, b < 256) {len : ℕ}
    (hlen : len ≤ chain.flatten.length) : readLoop 1 1 chain len = chain.flatten.take len := by
  -- each byte is a group of its own
  have hgs : ∀ l : List ℕ, (l.map fun b => [b]).flatten = l := fun l => by
    induction l with
    | nil => rfl
    | cons b l ih => simp only [List.map_cons, List.flatten_cons, ih, List.singleton_append]
  have hone : ∀ g ∈ chain.flatten.map (fun b => [b]), g.length = 1 := by
    simp only [List.mem_map]
    rintro g ⟨b, -, rfl⟩
    rfl
  rw [readLoop_eq_scanl (hgs _).symm hone Nat.one_pos 1 (by rwa [List.length_map]),
    ← List.map_take]
  exact scanl_singletons_mod _ (fun b hb' => hb b (List.mem_of_mem_take hb')) 0

/-- On a chain of bytes, the `bcopy` fast path for 1-byte integers stores
first the `len` bytes the general loop stores. -/
theorem zapLeafArrayRead_one_byte (chain : List (List ℕ)) (hb : ∀ b ∈ chain.flatten, b < 256)
    {arrayLen bufLen : ℕ} (hlen : arrayLen ≤ chain.flatten.length) :
    (zapLeafArrayRead chain 1 arrayLen 1 bufLen).take (min arrayLen bufLen) =
      readLoop 1 1 chain (min arrayLen bufLen) := by
  have hmin : min arrayLen bufLen ≤ chain.flatten.length := Nat.le_trans (Nat.min_le_left _ _) hlen
  rw [readLoop_one_byte hb hmin, zapLeafArrayRead, if_neg (by omega)]
  split_ifs
  · rfl
  · rw [readLoop_one_byte hb hmin, List.take_take, Nat.min_self]

/-- `[1, 2]` as 1-byte integers, read into 2-byte integers: the second
comes back as `1 * 256 + 2`. -/
theorem zap_leaf_array_read_widened :
    zapLeafArrayCreate 1 [1, 2] = [[1, 2]] ∧
      zapLeafArrayRead (zapLeafArrayCreate 1 [1, 2]) 1 2 2 2 = [1, 258] := by
  decide

end ZfsOsx.Zap
