/-
# Little-endian numbers

The `n` low bytes of a number, the low one first, and the number that bytes stand for.
-/
import Mathlib.Algebra.Group.Nat.Defs
import Mathlib.Data.List.Basic
import Mathlib.Tactic.Common

/-- The `n` low bytes of a number. -/
def bytesLE : ℕ → ℕ → List UInt8
  | 0, _ => []
  | n + 1, x => UInt8.ofNat x :: bytesLE n (x / 256)

/-- The number that bytes stand for. -/
def ofBytesLE : List UInt8 → ℕ
  | [] => 0
  | b :: bs => b.toNat + 256 * ofBytesLE bs

/-- The low byte of a number. -/
theorem ofNat_and_255 (x : ℕ) : UInt8.ofNat (x &&& 0xFF) = UInt8.ofNat x := by
  apply UInt8.toNat_inj.mp
  rw [UInt8.toNat_ofNat', UInt8.toNat_ofNat', show (0xFF : ℕ) = 2 ^ 8 - 1 from rfl,
    Nat.and_two_pow_sub_one_eq_mod]
  exact Nat.mod_mod _ _

@[simp] theorem length_bytesLE (n x : ℕ) : (bytesLE n x).length = n := by
  induction n generalizing x with
  | zero => rfl
  | succ n ih => rw [bytesLE, List.length_cons, ih]

/-- The bytes of a number stand for its remainder. -/
theorem ofBytesLE_bytesLE (n x : ℕ) : ofBytesLE (bytesLE n x) = x % 256 ^ n := by
  induction n generalizing x with
  | zero => rw [Nat.pow_zero, Nat.mod_one]; rfl
  | succ n ih =>
      have hbyte : (UInt8.ofNat x).toNat = x % 256 := UInt8.toNat_ofNat'
      rw [bytesLE, ofBytesLE, ih, hbyte, Nat.pow_succ, Nat.mul_comm (256 ^ n) 256,
        Nat.mod_mul]

/-- The number at the start of a byte sequence, and what follows it. -/
def readLE (n : ℕ) (bytes : List UInt8) : Option (ℕ × List UInt8) :=
  if n ≤ bytes.length then some (ofBytesLE (bytes.take n), bytes.drop n) else none

/-- Reading a number that has been written. -/
theorem readLE_append (n x : ℕ) (rest : List UInt8) :
    readLE n (bytesLE n x ++ rest) = some (x % 256 ^ n, rest) := by
  have hlen : n ≤ (bytesLE n x ++ rest).length := by
    rw [List.length_append, length_bytesLE]
    exact Nat.le_add_right n _
  have htake : (bytesLE n x ++ rest).take n = bytesLE n x :=
    List.take_left' (length_bytesLE n x)
  have hdrop : (bytesLE n x ++ rest).drop n = rest := List.drop_left' (length_bytesLE n x)
  rw [readLE, if_pos hlen, htake, hdrop, ofBytesLE_bytesLE]
