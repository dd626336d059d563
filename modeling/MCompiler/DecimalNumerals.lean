/-
# Decimal numerals

`dbuffer_pushUIntStr` pushes the digits of a number, `dbuffer_pushIntStr` a sign before
them, and `range_parseInt` reads a number back.  The loop of the latter stops at `INT_MAX`,
or at `INT_MAX + 1` after a `-`, which is late enough for every `int`.

* `decimalBytes_isNumeral` : the digits pushed are the numeral of the number;
* `rangeParseInt_numeral` : the numeral of an `int` is read as this `int`;
* `decimal_round_trip` : both together, on a buffer.
-/
import MCompiler.BufferContents
import MCompiler.ParserLiterals

/-! ## Numerals -/

/-- The canonical decimal numeral of a number: its digits, without leading zeros. -/
structure IsNumeral (n : ℕ) (digits : Range) : Prop where
  ne_nil : digits ≠ []
  digit : ∀ c ∈ digits, isDigit c
  value : decimalValue digits = n
  leading : digits.head? = some (byte '0') → digits = [byte '0']

/-- The canonical numeral of an integer: a `-` in front exactly if it is negative. -/
def IsIntNumeral (n : ℤ) (text : Range) : Prop :=
  if n < 0 then ∃ digits, text = byte '-' :: digits ∧ IsNumeral n.natAbs digits
  else IsNumeral n.natAbs text

/-- Distinct numbers have distinct numerals. -/
theorem IsNumeral.inj {n m : ℕ} {digits : Range} (h : IsNumeral n digits)
    (h' : IsNumeral m digits) : n = m :=
  h.value.symm.trans h'.value

theorem decimalValue_concat (digits : Range) (c : UInt8) :
    decimalValue (digits ++ [c]) = decimalValue digits * 10 + (c.toNat - 48) := by
  unfold decimalValue decimalFrom
  rw [List.foldl_concat]

theorem toNat_digit {d : ℕ} (hd : d < 10) : (UInt8.ofNat (48 + d)).toNat = 48 + d := by
  rw [UInt8.toNat_ofNat', Nat.mod_eq_of_lt (by omega)]

theorem isDigit_digit {d : ℕ} (hd : d < 10) : isDigit (UInt8.ofNat (48 + d)) := by
  have h0 : (byte '0').toNat = 48 := rfl
  have h9 : (byte '9').toNat = 57 := rfl
  unfold isDigit
  rw [Bool.and_eq_true, decide_eq_true_eq, decide_eq_true_eq, UInt8.le_iff_toNat_le,
    UInt8.le_iff_toNat_le, toNat_digit hd, h0, h9]
  omega

/-- A digit that is not zero. -/
theorem digit_ne_zero {d : ℕ} (hd : d < 10) (hpos : 0 < d) : UInt8.ofNat (48 + d) ≠ byte '0' := by
  have h0 : (byte '0').toNat = 48 := rfl
  intro h
  have heq := congrArg UInt8.toNat h
  rw [toNat_digit hd, h0] at heq
  omega

theorem decimalBytes_of_lt {n : ℕ} (h : n < 10) : decimalBytes n = [UInt8.ofNat (48 + n)] := by
  rw [decimalBytes, if_pos h]

theorem decimalBytes_of_le {n : ℕ} (h : 10 ≤ n) :
    decimalBytes n = decimalBytes (n / 10) ++ [UInt8.ofNat (48 + n % 10)] := by
  rw [decimalBytes, if_neg (Nat.not_lt.mpr h)]

/-- The first digit of a positive number is not zero. -/
theorem head_decimalBytes {n : ℕ} (hpos : 0 < n) :
    ∃ c digits, decimalBytes n = c :: digits ∧ c ≠ byte '0' := by
  induction n using Nat.strong_induction_on with
  | h n ih =>
      by_cases hlt : n < 10
      · exact ⟨_, [], decimalBytes_of_lt hlt, digit_ne_zero hlt hpos⟩
      · obtain ⟨c, digits, hdigits, hc⟩ := ih (n / 10) (by omega) (by omega)
        refine ⟨c, digits ++ [UInt8.ofNat (48 + n % 10)], ?_, hc⟩
        rw [decimalBytes_of_le (Nat.not_lt.mp hlt), hdigits, List.cons_append]

/-- **The digits of a number** are its numeral. -/
theorem decimalBytes_isNumeral (n : ℕ) : IsNumeral n (decimalBytes n) := by
  have hmod : n % 10 < 10 := Nat.mod_lt n (by decide)
  have hvalue : (∀ c ∈ decimalBytes n, isDigit c) ∧ decimalValue (decimalBytes n) = n := by
    induction n using Nat.strong_induction_on with
    | h n ih =>
        have hmod : n % 10 < 10 := Nat.mod_lt n (by decide)
        by_cases hlt : n < 10
        · rw [decimalBytes_of_lt hlt]
          refine ⟨?_, ?_⟩
          · intro c hc
            rw [List.mem_singleton.mp hc]
            exact isDigit_digit hlt
          · show 0 * 10 + ((UInt8.ofNat (48 + n)).toNat - 48) = n
            rw [toNat_digit hlt]
            omega
        · obtain ⟨hdigit, hval⟩ := ih (n / 10) (by omega) (Nat.mod_lt _ (by decide))
          rw [decimalBytes_of_le (Nat.not_lt.mp hlt)]
          refine ⟨?_, ?_⟩
          · intro c hc
            rcases List.mem_append.mp hc with hc | hc
            · exact hdigit c hc
            · rw [List.mem_singleton.mp hc]
              exact isDigit_digit hmod
          · rw [decimalValue_concat, hval, toNat_digit hmod]
            omega
  refine ⟨?_, hvalue.1, hvalue.2, ?_⟩
  · rw [decimalBytes]
    split <;> simp
  · intro hhead
    rcases Nat.eq_zero_or_pos n with rfl | hpos
    · exact decimalBytes_of_lt (by decide)
    · obtain ⟨c, digits, hdigits, hc⟩ := head_decimalBytes hpos
      rw [hdigits, List.head?_cons] at hhead
      exact absurd (Option.some.inj hhead) hc

/-- The number of digits. -/
theorem length_decimalBytes_le (k n : ℕ) (h : n < 10 ^ (k + 1)) :
    (decimalBytes n).length ≤ k + 1 := by
  induction k generalizing n with
  | zero =>
      rw [decimalBytes_of_lt (by simpa using h)]
      exact Nat.le_refl 1
  | succ k ih =>
      by_cases hlt : n < 10
      · rw [decimalBytes_of_lt hlt]
        exact Nat.succ_le_succ (Nat.zero_le _)
      · have hdiv : n / 10 < 10 ^ (k + 1) := by
          rw [Nat.pow_succ] at h
          exact Nat.div_lt_of_lt_mul (by omega)
        rw [decimalBytes_of_le (Nat.not_lt.mp hlt), List.length_append, List.length_singleton]
        exact Nat.succ_le_succ (ih _ hdiv)

/-! ## Reading numerals -/

/-- After a `-` the loop goes up to `INT_MAX + 1`. -/
theorem parseDigits_neg (digits : Range) (hdigits : ∀ c ∈ digits, isDigit c) (value : ℕ)
    (hle : decimalFrom value digits ≤ 2147483648) :
    parseDigits (-1) value digits = decimalFrom value digits := by
  induction digits generalizing value with
  | nil => rfl
  | cons c digits ih =>
      have hnext : (value : ℤ) * 10 + (charValue c - 48) =
          (value * 10 + (c.toNat - 48) : ℕ) := by
        rw [charValue_digit (hdigits c List.mem_cons_self)]
        push_cast
        rfl
      rw [decimalFrom_cons] at hle ⊢
      unfold parseDigits
      dsimp only
      rw [hnext]
      set value' := value * 10 + (c.toNat - 48)
      have hge := le_decimalFrom digits value'
      rw [if_neg (by omega)]
      by_cases hstop : 2147483648 ≤ value'
      · -- the last digit of `INT_MIN`
        rw [if_pos ⟨rfl, by omega⟩]
        omega
      · rw [if_neg (by omega)]
        exact ih (fun d hd => hdigits d (List.mem_cons_of_mem _ hd)) value' hle

theorem IsNumeral.isToken {n : ℕ} {digits : Range} (h : IsNumeral n digits) :
    IsToken .NUMBER digits := by
  obtain ⟨c, word, rfl⟩ := List.exists_cons_of_ne_nil h.ne_nil
  exact .number (h.digit c List.mem_cons_self) fun d hd => h.digit d (List.mem_cons_of_mem _ hd)

/-- **The numeral of an `int`** is read as this `int`. -/
theorem rangeParseInt_numeral {n : ℤ} (hmin : -2147483648 ≤ n) (hmax : n ≤ 2147483647)
    {text : Range} (h : IsIntNumeral n text) : rangeParseInt text = some n := by
  unfold IsIntNumeral at h
  by_cases hneg : n < 0
  · rw [if_pos hneg] at h
    obtain ⟨digits, rfl, hnumeral⟩ := h
    have hvalue : decimalFrom 0 digits = n.natAbs := hnumeral.value
    have hparse := parseDigits_neg digits hnumeral.digit 0 (by omega)
    show some (toInt (-parseDigits (-1) (0 : ℕ) digits)) = some n
    rw [hparse, hvalue]
    congr 1
    unfold toInt
    rw [Int.bmod_eq_of_le (by omega) (by omega)]
    omega
  · rw [if_neg hneg] at h
    have hvalue : decimalFrom 0 text = n.natAbs := h.value
    have hparse := (toInt_parseDigits_iff text h.digit 0 (by decide)).mpr (by omega)
    rw [rangeParseInt_number h.isToken]
    congr 1
    change toInt (parseDigits 1 0 text) = _ at hparse
    rw [hparse, hvalue]
    omega

/-! ## On a buffer -/

/-- The bytes that `dbuffer_pushIntStr` appends. -/
theorem intNumeral (number : Int32) : ∃ data,
    (BufferCall.pushIntStr number).pushed = some data ∧ IsIntNumeral number.toInt data ∧
      data.length ≤ 11 := by
  have hnumeral := decimalBytes_isNumeral number.toInt.natAbs
  have hlength := length_decimalBytes_le 9 number.toInt.natAbs (by
    have hmin := number.le_toInt
    have hmax := number.toInt_lt
    omega)
  refine ⟨_, rfl, ?_, ?_⟩
  · unfold IsIntNumeral
    by_cases hneg : number < 0
    · rw [if_pos hneg, if_pos (by simpa [Int32.lt_iff_toInt_lt] using hneg)]
      exact ⟨_, rfl, hnumeral⟩
    · rw [if_neg hneg, if_neg (by simpa [Int32.lt_iff_toInt_lt] using hneg)]
      exact hnumeral
  · split
    · rw [List.length_cons]
      omega
    · omega

/-- **Printing and parsing are inverse.**  `dbuffer_pushIntStr` appends the canonical
numeral of an `int`, which `range_parseInt` reads back, and `dbuffer_pushUIntStr` that of
an `unsigned int`, so that distinct numbers get distinct strings. -/
theorem decimal_round_trip (b : LoggedBuffer) (hfits : b.d.usage + 11 < 2 ^ 64) :
    (∀ number : Int32, ∃ data, (b.pushIntStr number).d.contents = b.d.contents ++ data ∧
      IsIntNumeral number.toInt data ∧ rangeParseInt data = some number.toInt) ∧
    (∀ number : UInt32, ∃ data, (b.pushUIntStr number).d.contents = b.d.contents ++ data ∧
      IsNumeral number.toNat data) ∧
    ∀ first second : UInt32,
      (b.pushUIntStr first).d.contents = (b.pushUIntStr second).d.contents → first = second := by
  have hunsigned : ∀ number : UInt32,
      (b.pushUIntStr number).d.contents = b.d.contents ++ decimalBytes number.toNat := by
    intro number
    have hlength := length_decimalBytes_le 9 number.toNat (by
      have hlt := number.toNat_lt
      omega)
    exact (b.pushUIntStr_appends number (by omega)).contents
  refine ⟨fun number => ?_, fun number => ?_, fun first second heq => ?_⟩
  · obtain ⟨data, hpushed, hnumeral, hlength⟩ := intNumeral number
    refine ⟨data, ?_, hnumeral, ?_⟩
    · exact (b.pushIntStr_appends number data hpushed (by omega)).contents
    · have hmin := number.le_toInt
      have hmax := number.toInt_lt
      exact rangeParseInt_numeral (by omega) (by omega) hnumeral
  · exact ⟨_, hunsigned number, decimalBytes_isNumeral _⟩
  · rw [hunsigned, hunsigned] at heq
    have hbytes := List.append_cancel_left heq
    have hfirst := decimalBytes_isNumeral first.toNat
    rw [hbytes] at hfirst
    exact UInt32.toNat_inj.mp (hfirst.inj (decimalBytes_isNumeral second.toNat))

/-- On a new buffer. -/
theorem decimal_round_trip_new :
    (∀ number : Int32, ∃ data,
      (LoggedBuffer.pushIntStr ⟨dbufferInitSize 1000, []⟩ number).d.contents =
          (dbufferInitSize 1000).contents ++ data ∧
        IsIntNumeral number.toInt data ∧ rangeParseInt data = some number.toInt) ∧
    (∀ number : UInt32, ∃ data,
      (LoggedBuffer.pushUIntStr ⟨dbufferInitSize 1000, []⟩ number).d.contents =
          (dbufferInitSize 1000).contents ++ data ∧ IsNumeral number.toNat data) ∧
    ∀ first second : UInt32,
      (LoggedBuffer.pushUIntStr ⟨dbufferInitSize 1000, []⟩ first).d.contents =
          (LoggedBuffer.pushUIntStr ⟨dbufferInitSize 1000, []⟩ second).d.contents →
        first = second :=
  decimal_round_trip ⟨dbufferInitSize 1000, []⟩ (by decide)
