/-
# Integer literals

`parser_readAtomInternal` reads the value of a literal with `range_parseInt`, whose loop
stops once the result has reached `INT_MAX` and which returns an `int`.

* `parserReadAtomInternal_keepsValue_iff` : the node holds the value of the literal
  exactly if this is at most `INT_MAX`; any other literal becomes a different number, and
  no error is set.
-/
import MCompiler.Parser
import MCompiler.TokenizerLongest

/-! ## The value of a literal -/

/-- The value of the digits `digits` after a number `value`. -/
def decimalFrom (value : ℕ) (digits : Range) : ℕ :=
  digits.foldl (fun value c => value * 10 + (c.toNat - 48)) value

/-- The decimal value of a literal. -/
def decimalValue (digits : Range) : ℕ := decimalFrom 0 digits

/-- **A literal keeps its value**: if it fits in an `int64` the node holds it, and if it
does not, no other number is returned without an error. -/
def KeepsValue {R : Type} (digits : Range) (p : Parser R)
    (result : Except Stop (AstNode × Parser R)) : Prop :=
  (decimalValue digits < 2 ^ 63 →
    ∃ num p', result = .ok (.number num, p') ∧ num.toInt = decimalValue digits) ∧
  (2 ^ 63 ≤ decimalValue digits →
    ∀ num p', result = .ok (.number num, p') → p'.error = p.error →
      num.toInt = decimalValue digits)

theorem decimalFrom_cons (value : ℕ) (c : UInt8) (digits : Range) :
    decimalFrom value (c :: digits) = decimalFrom (value * 10 + (c.toNat - 48)) digits := by
  simp only [decimalFrom, List.foldl_cons]

theorem le_decimalFrom (digits : Range) (value : ℕ) : value ≤ decimalFrom value digits := by
  induction digits generalizing value with
  | nil => exact Nat.le_refl value
  | cons c digits ih =>
      have hle := ih (value * 10 + (c.toNat - 48))
      rw [decimalFrom_cons]
      omega

/-! ## What `range_parseInt` returns -/

theorem isDigit_bounds {c : UInt8} (hc : isDigit c) : 48 ≤ c.toNat ∧ c.toNat ≤ 57 := by
  have h := hc
  simp only [isDigit, Bool.and_eq_true, decide_eq_true_eq, UInt8.le_iff_toNat_le] at h
  exact h

theorem charValue_digit {c : UInt8} (hc : isDigit c) : charValue c - 48 = (c.toNat - 48 : ℕ) := by
  have hb := isDigit_bounds hc
  unfold charValue
  rw [Int.bmod_eq_of_le (by omega) (by omega)]
  omega

theorem toInt_of_le {n : ℕ} (h : n ≤ 2147483647) : toInt n = n := by
  unfold toInt
  exact Int.bmod_eq_of_le (by omega) (by omega)

theorem toInt_le (n : ℤ) : toInt n ≤ 2147483647 := by
  have h : n.bmod (2 ^ 32) < (2 ^ 32 + 1) / 2 := Int.bmod_lt (by decide)
  unfold toInt
  omega

/-- **The loop** returns the value exactly if it does not exceed `INT_MAX`; otherwise it
stops early, or the conversion to `int` changes the result. -/
theorem toInt_parseDigits_iff (digits : Range) (hdigits : ∀ c ∈ digits, isDigit c) (value : ℕ)
    (hvalue : value < 2147483647) :
    toInt (parseDigits 1 value digits) = decimalFrom value digits ↔
      decimalFrom value digits ≤ 2147483647 := by
  induction digits generalizing value with
  | nil => exact iff_of_true (toInt_of_le hvalue.le) hvalue.le
  | cons c digits ih =>
      have hnext : (value : ℤ) * 10 + (charValue c - 48) =
          (value * 10 + (c.toNat - 48) : ℕ) := by
        rw [charValue_digit (hdigits c List.mem_cons_self)]
        push_cast
        rfl
      rw [decimalFrom_cons]
      unfold parseDigits
      dsimp only
      rw [hnext]
      set value' := value * 10 + (c.toNat - 48)
      have hle := le_decimalFrom digits value'
      by_cases hstop : 2147483647 ≤ value'
      · rw [if_pos ⟨rfl, by omega⟩]
        constructor
        · intro heq
          have hmax := toInt_le value'
          omega
        · intro hmax
          rw [toInt_of_le (by omega)]
          omega
      · rw [if_neg (by omega), if_neg (by omega)]
        exact ih (fun d hd => hdigits d (List.mem_cons_of_mem _ hd)) value' (by omega)

/-- A literal consists of digits. -/
theorem IsToken.digits {digits : Range} (h : IsToken .NUMBER digits) :
    digits ≠ [] ∧ ∀ c ∈ digits, isDigit c := by
  have hsymbols : ∀ s ∈ symbols, s.2 ≠ .NUMBER := by decide
  have hkeywords : ∀ s ∈ keywords, s.2 ≠ .NUMBER := by decide
  cases h with
  | symbol hmem => exact absurd rfl (hsymbols _ hmem)
  | keyword hmem => exact absurd rfl (hkeywords _ hmem)
  | number hc hword => exact ⟨List.cons_ne_nil _ _, List.forall_mem_cons.mpr ⟨hc, hword⟩⟩

/-- A literal has no sign. -/
theorem rangeParseInt_number {digits : Range} (h : IsToken .NUMBER digits) :
    rangeParseInt digits = some (toInt (parseDigits 1 0 digits)) := by
  obtain ⟨hne, hall⟩ := h.digits
  cases digits with
  | nil => exact absurd rfl hne
  | cons c word =>
      have hb := isDigit_bounds (hall c List.mem_cons_self)
      unfold rangeParseInt
      split
      · rename_i heq
        cases heq
      · rename_i heq
        cases heq
        exact absurd hb (by decide)
      · rename_i heq
        cases heq
        exact absurd hb (by decide)
      · rfl

/-! ## What the parser returns -/

section Parsing

variable {R : Type} {tokenNext : R → Token × R}

/-- A number token becomes a number node. -/
theorem parserReadAtomInternal_number {p p' : Parser R} {digits : Range}
    (h : IsToken .NUMBER digits) (hnext : parserNext tokenNext p = (⟨.NUMBER, digits⟩, p'))
    (fuel : ℕ) (hasPrefix : Bool) :
    parserReadAtomInternal tokenNext (fuel + 1) p hasPrefix =
      .ok (.number (Int64.ofInt (toInt (parseDigits 1 0 digits))), p') := by
  rw [parserReadAtomInternal, hnext]
  simp [rangeParseInt_number h]

/-- An `int` is an `int64_t`. -/
theorem toInt_ofInt_toInt (n : ℤ) : (Int64.ofInt (toInt n)).toInt = toInt n := by
  have hmax := toInt_le n
  have hmin : -(2 ^ 32 / 2) ≤ n.bmod (2 ^ 32) := Int.le_bmod (by decide)
  unfold toInt at *
  exact Int64.toInt_ofInt_of_le (by omega) (by omega)

/-- Taking a token does not set the error. -/
theorem parserNext_error (tokenNext : R → Token × R) (p : Parser R) :
    (parserNext tokenNext p).2.error = p.error := by
  unfold parserNext
  split <;> rfl

/-- The node that the parser makes holds the value exactly if this is at most
`INT_MAX`. -/
theorem keepsValue_ok_iff {p p' : Parser R} {digits : Range} (h : IsToken .NUMBER digits)
    (herror : p'.error = p.error) :
    KeepsValue digits p (.ok (.number (Int64.ofInt (toInt (parseDigits 1 0 digits))), p')) ↔
      decimalValue digits ≤ 2147483647 := by
  have hvalue : toInt (parseDigits 1 0 digits) = decimalValue digits ↔
      decimalValue digits ≤ 2147483647 :=
    toInt_parseDigits_iff digits h.digits.2 0 (by decide)
  rw [← hvalue]
  constructor
  · rintro ⟨hfits, hlong⟩
    rw [← toInt_ofInt_toInt]
    by_cases hsize : decimalValue digits < 2 ^ 63
    · obtain ⟨num, p₁, hok, hnum⟩ := hfits hsize
      cases hok
      exact hnum
    · exact hlong (Nat.not_lt.mp hsize) _ _ rfl herror
  · intro heq
    have hnum := (toInt_ofInt_toInt _).trans heq
    refine ⟨fun _ => ⟨_, _, rfl, hnum⟩, fun _ num p₁ hok _ => ?_⟩
    cases hok
    exact hnum

/-- **A literal keeps its value exactly if this is at most `INT_MAX`.** -/
theorem parserReadAtomInternal_keepsValue_iff {p p' : Parser R} {digits : Range}
    (h : IsToken .NUMBER digits) (hnext : parserNext tokenNext p = (⟨.NUMBER, digits⟩, p'))
    (fuel : ℕ) (hasPrefix : Bool) :
    KeepsValue digits p (parserReadAtomInternal tokenNext (fuel + 1) p hasPrefix) ↔
      decimalValue digits ≤ 2147483647 := by
  have herr := parserNext_error tokenNext p
  rw [hnext] at herr
  rw [parserReadAtomInternal_number h hnext]
  exact keepsValue_ok_iff h herr

end Parsing

/-- A reader that holds its tokens. -/
def tokenList (ts : List Token) : Token × List Token := (ts.headD ⟨.EEOF, []⟩, ts.tail)

/-- The largest literal that keeps its value. -/
theorem parserReadAtomInternal_keepsValue_intMax :
    KeepsValue ("2147483647".toList.map byte)
      (⟨[], true, ⟨.NUMBER, "2147483647".toList.map byte⟩, none⟩ : Parser (List Token))
      (parserReadAtomInternal tokenList 1
        ⟨[], true, ⟨.NUMBER, "2147483647".toList.map byte⟩, none⟩ false) :=
  (parserReadAtomInternal_keepsValue_iff
    (.number (by decide) (List.all_eq_true.mp (by decide))) rfl 0 false).mpr (by decide)

/-- The next literal becomes a negative number. -/
theorem parserReadAtomInternal_not_keepsValue :
    ¬ ∀ (fuel : ℕ) (p p' : Parser (List Token)) (digits : Range), IsToken .NUMBER digits →
      parserNext tokenList p = (⟨.NUMBER, digits⟩, p') →
        KeepsValue digits p (parserReadAtomInternal tokenList (fuel + 1) p false) := by
  intro hall
  have htoken : IsToken .NUMBER ("2147483648".toList.map byte) :=
    .number (by decide) (List.all_eq_true.mp (by decide))
  have hnext : parserNext tokenList ⟨[], true, ⟨.NUMBER, "2147483648".toList.map byte⟩, none⟩ =
      (⟨.NUMBER, "2147483648".toList.map byte⟩, ⟨[], false, ⟨.ERROR, []⟩, none⟩) := rfl
  have hkeeps := hall 0 _ _ _ htoken hnext
  rw [parserReadAtomInternal_number htoken hnext] at hkeeps
  exact absurd ((keepsValue_ok_iff htoken rfl).mp hkeeps) (by decide)
