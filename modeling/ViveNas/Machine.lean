/-
The machine the sources run on, as far as they use it: bytes, 64-bit
wrap-around, bounded memory, and the ways a call can die.

Undefined behaviour is not given a meaning. A copy outside a buffer, a
division by zero, a signed overflow and a failed `assert` each end the
call with a `Fault`, so a theorem that a call returns also says that it
does none of these.
-/
import ViveNas.Lib.LittleEndian
import ViveNas.Lib.Overlay

namespace ViveNas

open LittleEndian Overlay

abbrev Bytes := List UInt8

/-- What a call can die of. `diverged` marks a loop that ran past the
number of turns it was given. -/
inductive Fault where
  | assertFailed
  | outOfBounds
  | divByZero
  | overflow
  | diverged
  deriving DecidableEq, Repr

variable {α β : Type}

@[simp] theorem ok_bind (a : α) (f : α → Except Fault β) :
    (Except.ok a >>= f) = f a := rfl

@[simp] theorem error_bind (e : Fault) (f : α → Except Fault β) :
    ((Except.error e : Except Fault α) >>= f) = .error e := rfl

/-- A result of a sequence, split at the seam. -/
theorem ok_of_bind {x : Except Fault α} {f : α → Except Fault β} {b : β}
    (h : x >>= f = .ok b) : ∃ a, x = .ok a ∧ f a = .ok b := by
  cases x with
  | error e => cases h
  | ok a => exact ⟨a, rfl, h⟩

@[simp] theorem pure_eq_ok (a : α) : (pure a : Except Fault α) = .ok a := rfl

@[simp] theorem throw_eq_error (e : Fault) :
    (throw e : Except Fault α) = .error e := rfl

-- ==================================================== size_t arithmetic

/-- Reduction to `size_t`. Irreducible, so that unification never
computes with the modulus. -/
@[irreducible] def u64 (n : Nat) : Nat := n % 2 ^ 64

/-- Unsigned 64-bit subtraction, wrapping below zero. -/
def sub64 (a b : Nat) : Nat := u64 (a + 2 ^ 64 - b)

theorem u64_of_lt {n : Nat} (h : n < 2 ^ 64) : u64 n = n := by
  rw [u64, Nat.mod_eq_of_lt h]

theorem sub64_of_le {a b : Nat} (hb : b ≤ a) (ha : a < 2 ^ 64) :
    sub64 a b = a - b := by
  rw [sub64, u64, show a + 2 ^ 64 - b = (a - b) + 2 ^ 64 by omega,
    Nat.add_mod_right, Nat.mod_eq_of_lt (by omega)]

-- ============================================================== memory

/-- `memcpy(dst + off, src + srcOff, n)`. -/
def memcpy (dst : Bytes) (off : Nat) (src : Bytes) (srcOff n : Nat) :
    Except Fault Bytes :=
  if srcOff + n ≤ src.length ∧ off + n ≤ dst.length then
    .ok (overwrite dst off ((src.drop srcOff).take n))
  else .error .outOfBounds

/-- `memset(dst + off, 0, n)`. -/
def memset0 (dst : Bytes) (off n : Nat) : Except Fault Bytes :=
  if off + n ≤ dst.length then
    .ok (overwrite dst off (List.replicate n 0))
  else .error .outOfBounds

/-- Load a `w`-byte unsigned field at `off`. -/
def loadLe (src : Bytes) (off w : Nat) : Except Fault Nat :=
  if off + w ≤ src.length then .ok (leNat ((src.drop off).take w))
  else .error .outOfBounds

/-- Store the low `w` bytes of `n` at `off`. -/
def storeLe (dst : Bytes) (off w n : Nat) : Except Fault Bytes :=
  memcpy dst off (leBytes w n) 0 w

/-- `std::string::resize`: truncate, or extend by NUL bytes. -/
def resize (s : Bytes) (n : Nat) : Bytes :=
  s.take n ++ List.replicate (n - s.length) 0

@[simp] theorem resize_nil (n : Nat) : resize [] n = List.replicate n 0 := by
  simp [resize]

@[simp] theorem resize_length (s : Bytes) (n : Nat) :
    (resize s n).length = n := by
  rw [resize, List.length_append, List.length_take, List.length_replicate]
  omega

/-- A resized string, split at a position. -/
theorem resize_split (s : Bytes) {m n : Nat} (h : m ≤ n) :
    ∃ hd tl, resize s n = hd ++ tl ∧ hd.length = m ∧ tl.length = n - m := by
  refine ⟨_, _, (List.take_append_drop m _).symm, ?_, ?_⟩
  · rw [List.length_take, resize_length]
    omega
  · rw [List.length_drop, resize_length]

theorem memcpy_ok {dst src : Bytes} {off srcOff n : Nat}
    (hs : srcOff + n ≤ src.length) (hd : off + n ≤ dst.length) :
    memcpy dst off src srcOff n
      = .ok (overwrite dst off ((src.drop srcOff).take n)) :=
  if_pos ⟨hs, hd⟩

/-- A copy of everything from `srcOff` on. -/
theorem memcpy_rest {dst src : Bytes} {off srcOff : Nat}
    (hs : srcOff ≤ src.length)
    (hd : off + (src.length - srcOff) ≤ dst.length) :
    memcpy dst off src srcOff (src.length - srcOff)
      = .ok (overwrite dst off (src.drop srcOff)) := by
  rw [memcpy_ok (by omega) hd, List.take_of_length_le]
  rw [List.length_drop]

theorem loadLe_ok {src : Bytes} {off w : Nat} (h : off + w ≤ src.length) :
    loadLe src off w = .ok (leNat ((src.drop off).take w)) :=
  if_pos h

theorem storeLe_ok {dst : Bytes} {off w n : Nat} (h : off + w ≤ dst.length) :
    storeLe dst off w n = .ok (overwrite dst off (leBytes w n)) := by
  have hlen := leBytes_length w n
  rw [storeLe, memcpy_ok (by omega) h, List.drop_zero,
    List.take_of_length_le (by omega)]

end ViveNas
