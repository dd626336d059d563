/-
# Ranges of text (`buffer.h`, `buffer.c`)

A `range_t` is a pointer to text and a size; the model is the text itself.
-/
import MCompiler.CInt

/-- `range_t`: the bytes of the text. -/
abbrev Range := List UInt8

/-- The value of a `char`, which is signed. -/
def charValue (c : UInt8) : ℤ := (c.toNat : ℤ).bmod 256

/-- The loop of `range_parseInt`: it stops once the result has reached `INT_MAX`. -/
def parseDigits (sign : ℤ) : ℤ → Range → ℤ
  | result, [] => result
  | result, c :: range =>
      let result := result * 10 + (charValue c - 48)
      if sign = 1 ∧ result ≥ 2147483647 then result
      else if sign = -1 ∧ result - 1 ≥ 2147483647 then result
      else parseDigits sign result range

/-- `range_parseInt`; the assertion that the range is not empty fails as `none`. -/
def rangeParseInt (range : Range) : Option ℤ :=
  match range with
  | [] => none
  | 45 :: digits => some (toInt (-parseDigits (-1) 0 digits))
  | 43 :: digits => some (toInt (parseDigits 1 0 digits))
  | digits => some (toInt (parseDigits 1 0 digits))

/-- A non-empty range has a value. -/
theorem rangeParseInt_cons (c : UInt8) (range : Range) : ∃ n, rangeParseInt (c :: range) = some n := by
  unfold rangeParseInt
  split
  · rename_i h
    cases h
  · exact ⟨_, rfl⟩
  · exact ⟨_, rfl⟩
  · exact ⟨_, rfl⟩
