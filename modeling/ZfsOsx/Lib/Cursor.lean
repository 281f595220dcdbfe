import Mathlib.Order.Basic

/-!
# Bounded writes through a cursor

A writer into a buffer of `cap` bytes keeps a cursor, the number of bytes
written so far; each write of `k` bytes checks that they fit and advances the
cursor, and fails with the writer's `room` error otherwise. A program is a
function of the capacity and the starting cursor.

`Writes room f w` says that `f` behaves, for every capacity and every start
inside the buffer, as one write of `w` bytes: it succeeds exactly when `w`
bytes fit, then ends `w` bytes further, and it fails in no other way. It
composes along `>>=`, so the bytes a program writes add up along its structure.
-/
namespace Cursor

variable {ε : Type}

/-- One write of `k` bytes at cursor `c` of a buffer of `cap` bytes. -/
def put (room : ε) (k cap c : ℕ) : Except ε ℕ :=
  if c + k ≤ cap then .ok (c + k) else .error room

/-- `n` writes of `e` bytes each. -/
def putMany (room : ε) (e : ℕ) : ℕ → ℕ → ℕ → Except ε ℕ
  | 0, _, c => .ok c
  | n + 1, cap, c => put room e cap c >>= putMany room e n cap

/-- `f` writes exactly `w` bytes, whatever the buffer and the start in it. -/
def Writes (room : ε) (f : ℕ → ℕ → Except ε ℕ) (w : ℕ) : Prop :=
  ∀ cap c, c ≤ cap → f cap c = put room w cap c

section Writes

variable {room : ε}

theorem put_of_le {k cap c : ℕ} (h : c + k ≤ cap) : put room k cap c = .ok (c + k) := if_pos h

theorem put_of_lt {k cap c : ℕ} (h : cap < c + k) : put room k cap c = .error room :=
  if_neg (Nat.not_le.2 h)

theorem writes_put (room : ε) (k : ℕ) : Writes room (put room k) k := fun _ _ _ => rfl

theorem writes_ok : Writes room (fun _ c => .ok c) 0 := by
  intro cap c hc
  rw [put_of_le (Nat.add_zero c ▸ hc)]
  rfl

theorem Writes.congr {f g : ℕ → ℕ → Except ε ℕ} {w : ℕ} (hg : Writes room g w)
    (h : ∀ cap c, c ≤ cap → f cap c = g cap c) : Writes room f w :=
  fun cap c hc => (h cap c hc).trans (hg cap c hc)

theorem Writes.congr_bytes {f : ℕ → ℕ → Except ε ℕ} {w v : ℕ} (hf : Writes room f w)
    (h : w = v) : Writes room f v := h ▸ hf

/-- Two programs in sequence write what each writes: the second starts where
the first ended, still inside the buffer, and a first that overflows stops
the second from running. -/
theorem Writes.bind {f g : ℕ → ℕ → Except ε ℕ} {w v : ℕ} (hf : Writes room f w)
    (hg : Writes room g v) : Writes room (fun cap c => f cap c >>= g cap) (w + v) := by
  intro cap c hc
  show f cap c >>= g cap = _
  rw [hf cap c hc]
  by_cases hw : c + w ≤ cap
  · rw [put_of_le hw]
    show g cap (c + w) = _
    rw [hg cap (c + w) hw]
    unfold put
    rw [Nat.add_assoc]
  · rw [put_of_lt (Nat.lt_of_not_le hw), put_of_lt (by omega)]
    rfl

/-- Renaming the errors keeps the writes when the room error keeps its name. -/
theorem Writes.mapError {f : ℕ → ℕ → Except ε ℕ} {w : ℕ} (hf : Writes room f w)
    {t : ε → ε} (ht : t room = room) : Writes room (fun cap c => (f cap c).mapError t) w := by
  intro cap c hc
  show (f cap c).mapError t = _
  rw [hf cap c hc]
  unfold put
  split <;> simp [Except.mapError, ht]

theorem writes_putMany (e n : ℕ) : Writes room (putMany room e n) (n * e) := by
  induction n with
  | zero => exact (writes_ok).congr_bytes (Nat.zero_mul e).symm
  | succ n ih =>
    refine ((writes_put room e).bind ih).congr_bytes ?_
    rw [Nat.succ_mul, Nat.add_comm]

end Writes

/-- `f` writes as one write of at most `b` bytes. -/
def WritesAtMost (room : ε) (f : ℕ → ℕ → Except ε ℕ) (b : ℕ) : Prop :=
  ∃ w ≤ b, Writes room f w

section WritesAtMost

variable {room : ε}

theorem Writes.atMost {f : ℕ → ℕ → Except ε ℕ} {w b : ℕ} (hf : Writes room f w) (h : w ≤ b) :
    WritesAtMost room f b :=
  ⟨w, h, hf⟩

theorem WritesAtMost.mono {f : ℕ → ℕ → Except ε ℕ} {b b' : ℕ} (hf : WritesAtMost room f b)
    (h : b ≤ b') : WritesAtMost room f b' := by
  obtain ⟨w, hw, hf⟩ := hf
  exact ⟨w, Nat.le_trans hw h, hf⟩

theorem WritesAtMost.congr {f g : ℕ → ℕ → Except ε ℕ} {b : ℕ} (hg : WritesAtMost room g b)
    (h : ∀ cap c, c ≤ cap → f cap c = g cap c) : WritesAtMost room f b := by
  obtain ⟨w, hw, hg⟩ := hg
  exact ⟨w, hw, hg.congr h⟩

theorem WritesAtMost.bind {f g : ℕ → ℕ → Except ε ℕ} {b b' : ℕ} (hf : WritesAtMost room f b)
    (hg : WritesAtMost room g b') :
    WritesAtMost room (fun cap c => f cap c >>= g cap) (b + b') := by
  obtain ⟨w, hw, hf⟩ := hf
  obtain ⟨w', hw', hg⟩ := hg
  exact ⟨w + w', Nat.add_le_add hw hw', hf.bind hg⟩

theorem WritesAtMost.mapError {f : ℕ → ℕ → Except ε ℕ} {b : ℕ} (hf : WritesAtMost room f b)
    {t : ε → ε} (ht : t room = room) :
    WritesAtMost room (fun cap c => (f cap c).mapError t) b := by
  obtain ⟨w, hw, hf⟩ := hf
  exact ⟨w, hw, hf.mapError ht⟩

/-- A program that writes at most `b` bytes succeeds from any start with `b`
bytes of room after it. -/
theorem WritesAtMost.ok {f : ℕ → ℕ → Except ε ℕ} {b cap c : ℕ} (hf : WritesAtMost room f b)
    (h : c + b ≤ cap) : ∃ w ≤ b, f cap c = .ok (c + w) := by
  obtain ⟨w, hw, hf⟩ := hf
  refine ⟨w, hw, ?_⟩
  rw [hf cap c (by omega), put_of_le (by omega)]

end WritesAtMost

end Cursor
