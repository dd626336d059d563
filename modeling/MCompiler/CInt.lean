/-
# C integer arithmetic

The unsigned arithmetic of `size_t` (64 bits on the x86-64 target) and the
conversions to `int`.  A machine integer is a natural number or an integer that
the operations below reduce modulo the width of its C type.
-/
import Mathlib.Algebra.Group.Int.Defs
import Mathlib.Algebra.Group.Nat.Defs
import Mathlib.Data.Int.Init
import Mathlib.Tactic.Common

/-! ## `size_t` -/

/-- `a + b` in `size_t`. -/
def sizeAdd (a b : ℕ) : ℕ := (a + b) % 2 ^ 64

/-- `a - b` in `size_t`: it wraps around when `b` is the larger one. -/
def sizeSub (a b : ℕ) : ℕ := (a + 2 ^ 64 - b) % 2 ^ 64

/-- `a * b` in `size_t`. -/
def sizeMul (a b : ℕ) : ℕ := (a * b) % 2 ^ 64

theorem sizeAdd_lt (a b : ℕ) : sizeAdd a b < 2 ^ 64 := Nat.mod_lt _ (by decide)

theorem sizeMul_lt (a b : ℕ) : sizeMul a b < 2 ^ 64 := Nat.mod_lt _ (by decide)

/-- Without overflow `sizeAdd` is the addition. -/
theorem sizeAdd_of_lt {a b : ℕ} (h : a + b < 2 ^ 64) : sizeAdd a b = a + b :=
  Nat.mod_eq_of_lt h

/-- Without wrapping `sizeSub` is the subtraction. -/
theorem sizeSub_of_le {a b : ℕ} (ha : a < 2 ^ 64) (h : b ≤ a) : sizeSub a b = a - b := by
  unfold sizeSub
  omega

/-- A subtraction that wraps around. -/
theorem sizeSub_of_lt {a b : ℕ} (hb : b < 2 ^ 64) (h : a < b) :
    sizeSub a b = 2 ^ 64 + a - b := by
  unfold sizeSub
  omega

/-! ## `int` -/

/-- The conversion to `int` (32 bits). -/
def toInt (n : ℤ) : ℤ := n.bmod (2 ^ 32)
