/-
# Tokens are read by longest match, but for `>` and `<=`

`TokenAt` : the kind and the text of the token that a text starts with, the longest one of
the language.  `tokenNext_longest_iff` : what `token_next` returns is this token if and
only if the text after the spaces starts neither with `>` nor with `<=`.
-/
import Mathlib.Tactic.SplitIfs
import MCompiler.Lib.LongestMatch
import MCompiler.Tokenizer

/-! ## The language of the tokens -/

/-- The tokens that are made of other characters than letters and digits. -/
def symbols : List (Range × TokenType) :=
  [([byte '\x7b'], .CURLY_OPEN), ([byte '\x7d'], .CURLY_CLOSE), ([byte '('], .PARAN_OPEN),
    ([byte ')'], .PARAN_CLOSE), ([byte '+'], .PLUS), ([byte '-'], .MINUS), ([byte '*'], .MUL),
    ([byte '/'], .DIV), ([byte ';'], .SEMI_COLON), ([byte '='], .ASSIGN),
    ([byte '=', byte '='], .EQUALS), ([byte '>'], .GREATER),
    ([byte '>', byte '='], .GREATER_EQ), ([byte '<'], .LESS_THAN),
    ([byte '<', byte '='], .LESS_EQ)]

/-- The words of the language: a token of each type. -/
inductive IsToken : TokenType → Range → Prop
  | symbol {word type} : (word, type) ∈ symbols → IsToken type word
  | keyword {word type} : (word, type) ∈ keywords → IsToken type word
  | id {c word} : isLetter c → (∀ d ∈ word, isWordChar d) →
      (∀ type, (c :: word, type) ∉ keywords) → IsToken .ID (c :: word)
  | number {c word} : isDigit c → (∀ d ∈ word, isDigit d) → IsToken .NUMBER (c :: word)

/-- The token at the start of a text: the end, the longest token, or an error. -/
inductive TokenAt : Range → TokenType → Range → Prop
  | eof : TokenAt [] .EEOF []
  | token {text type word} : Longest (fun w => ∃ t, IsToken t w) text word →
      IsToken type word → TokenAt text type word
  | error {c text} : (∀ w, w <+: c :: text → ∀ t, ¬ IsToken t w) →
      TokenAt (c :: text) .ERROR [c]

/-- `token_next` returns the token that comes after the spaces, with its range. -/
structure ReadsToken (reader : Reader) : Prop where
  tokenAt : TokenAt (reader.range.text.dropWhile isWhite) (tokenNext reader).1.type
    (tokenNext reader).1.range.text
  ptr : reader.range.text.dropWhile isWhite ≠ [] → (tokenNext reader).1.range.ptr =
    reader.range.ptr + (reader.range.text.takeWhile isWhite).length

section Language

variable {c : UInt8} {type : TokenType} {word text : Range}

/-- A symbol starts with no letter and no digit. -/
theorem symbols_head (h : (c :: word, type) ∈ symbols) : isWordChar c = false := by
  have hall : ∀ s ∈ symbols, s.1.head?.any isWordChar = false := by decide
  exact hall _ h

/-- A keyword is a word. -/
theorem keywords_isWord (h : (word, type) ∈ keywords) :
    ∃ c w, word = c :: w ∧ isLetter c ∧ ∀ d ∈ w, isWordChar d := by
  have hall : ∀ s ∈ keywords, s.1.head?.any isLetter ∧ s.1.tail.all isWordChar := by decide
  obtain ⟨hhead, htail⟩ := hall _ h
  cases word with
  | nil => cases hhead
  | cons c w => exact ⟨c, w, rfl, hhead, List.all_eq_true.mp htail⟩

/-- A symbol of more than one character. -/
theorem symbols_long {c' : UInt8} (h : (c :: c' :: word, type) ∈ symbols) :
    (c = byte '=' ∨ c = byte '>' ∨ c = byte '<') ∧ c' = byte '=' ∧ word = [] := by
  have hall : ∀ s ∈ symbols, 2 ≤ s.1.length →
      (s.1.head? = some (byte '=') ∨ s.1.head? = some (byte '>') ∨
        s.1.head? = some (byte '<')) ∧ s.1.tail = [byte '='] := by decide
  obtain ⟨hhead, htail⟩ := hall _ h (Nat.le_add_left _ _)
  have htail : c' :: word = [byte '='] := htail
  simp only [List.head?_cons, Option.some.injEq] at hhead
  cases htail
  exact ⟨hhead, rfl, rfl⟩

/-- What a token is like that starts with `c`. -/
theorem IsToken.cases_head (h : IsToken type (c :: word)) :
    isWordChar c = false ∧ (c :: word, type) ∈ symbols ∨
      isLetter c ∧ (∀ d ∈ word, isWordChar d) ∨ isDigit c ∧ ∀ d ∈ word, isDigit d := by
  cases h with
  | symbol h => exact .inl ⟨symbols_head h, h⟩
  | keyword h =>
      obtain ⟨c', w, hword, hc, hw⟩ := keywords_isWord h
      cases hword
      exact .inr (.inl ⟨hc, hw⟩)
  | id hc hword _ => exact .inr (.inl ⟨hc, hword⟩)
  | number hc hword => exact .inr (.inr ⟨hc, hword⟩)

/-- No token is empty. -/
theorem IsToken.ne_nil (h : IsToken type word) : word ≠ [] := by
  have hsymbols : ∀ s ∈ symbols, s.1 ≠ [] := by decide
  have hkeywords : ∀ s ∈ keywords, s.1 ≠ [] := by decide
  cases h with
  | symbol h => exact hsymbols _ h
  | keyword h => exact hkeywords _ h
  | id _ _ _ => exact List.cons_ne_nil _ _
  | number _ _ => exact List.cons_ne_nil _ _

/-- A token that starts with another character is a symbol. -/
theorem IsToken.symbol_of_head (h : IsToken type (c :: word)) (hc : isWordChar c = false) :
    (c :: word, type) ∈ symbols := by
  have hor : isLetter c = false ∧ isDigit c = false := Bool.or_eq_false_iff.mp hc
  rcases h.cases_head with ⟨-, h⟩ | ⟨hl, -⟩ | ⟨hd, -⟩
  · exact h
  · exact absurd hl (by simp [hor.1])
  · exact absurd hd (by simp [hor.2])

/-! ## The token at the start of a text -/

/-- A symbol of one character, which no `=` follows where that makes another symbol. -/
theorem tokenAt_single (hsymbol : ([c], type) ∈ symbols)
    (hone : c = byte '=' ∨ c = byte '>' ∨ c = byte '<' → text.head? ≠ some (byte '=')) :
    TokenAt (c :: text) type [c] := by
  refine .token (longest_singleton ⟨type, .symbol hsymbol⟩ ?_) (.symbol hsymbol)
  rintro c' w ⟨rest, rfl⟩ ⟨t, htoken⟩
  obtain ⟨hc, rfl, -⟩ := symbols_long (htoken.symbol_of_head (symbols_head hsymbol))
  exact hone hc rfl

/-- A symbol of two characters. -/
theorem tokenAt_pair {c' : UInt8} (hsymbol : ([c, c'], type) ∈ symbols) :
    TokenAt (c :: c' :: text) type [c, c'] := by
  refine .token (longest_pair ⟨type, .symbol hsymbol⟩ ?_) (.symbol hsymbol)
  rintro w hw ⟨t, htoken⟩
  rcases w with _ | ⟨d, _ | ⟨d', w⟩⟩
  · exact Nat.zero_le _
  · exact Nat.le_succ 1
  · obtain ⟨rfl, -⟩ := List.cons_prefix_cons.mp hw
    obtain ⟨-, -, rfl⟩ := symbols_long (htoken.symbol_of_head (symbols_head hsymbol))
    exact le_refl 2

/-- A letter is no digit. -/
theorem not_isDigit_of_isLetter (hc : isLetter c) : isDigit c = false := by
  unfold isLetter at hc
  unfold isDigit
  simp only [Bool.or_eq_true, Bool.and_eq_true, decide_eq_true_eq, Bool.and_eq_false_iff,
    decide_eq_false_iff_not, UInt8.le_iff_toNat_le] at hc ⊢
  have h9 : (byte '9').toNat = 57 := rfl
  have ha : (byte 'a').toNat = 97 := rfl
  have hA : (byte 'A').toNat = 65 := rfl
  omega

/-- The type that `read_id` gives to a word. -/
theorem isToken_wordType (hc : isLetter c) (hword : ∀ d ∈ word, isWordChar d) :
    IsToken (wordType (c :: word)) (c :: word) := by
  unfold wordType
  cases hlookup : keywords.lookup (c :: word) with
  | some type =>
      obtain ⟨l₁, l₂, hkeywords, -⟩ := List.lookup_eq_some_iff.mp hlookup
      apply IsToken.keyword
      rw [hkeywords]
      exact List.mem_append_right _ List.mem_cons_self
  | none =>
      refine .id hc hword fun type hmem => ?_
      exact absurd rfl (bne_iff_ne.mp (List.lookup_eq_none_iff.mp hlookup _ hmem))

/-- **A word** goes as far as letters and digits do. -/
theorem tokenAt_word (hc : isLetter c) :
    TokenAt (c :: text) (wordType ((c :: text).takeWhile isWordChar))
      ((c :: text).takeWhile isWordChar) := by
  have hchar : isWordChar c := by
    unfold isWordChar
    rw [hc, Bool.true_or]
  have hall : ∀ d ∈ (c :: text).takeWhile isWordChar, isWordChar d :=
    fun d hd => List.mem_takeWhile_imp hd
  have htoken : IsToken (wordType ((c :: text).takeWhile isWordChar))
      ((c :: text).takeWhile isWordChar) := by
    rw [List.takeWhile_cons_of_pos hchar] at hall ⊢
    exact isToken_wordType hc fun d hd => hall d (List.mem_cons_of_mem _ hd)
  refine .token (longest_takeWhile ⟨_, htoken⟩ ?_) htoken
  rintro w ⟨rest, hw⟩ ⟨t, ht⟩ d hd
  cases w with
  | nil => exact absurd hd List.not_mem_nil
  | cons c' w =>
      cases hw
      rcases ht.cases_head with ⟨hno, -⟩ | ⟨-, hrun⟩ | ⟨hdigit, -⟩
      · exact absurd hchar (by simp [hno])
      · rcases List.mem_cons.mp hd with rfl | hd
        · exact hchar
        · exact hrun d hd
      · exact absurd hdigit (by simp [not_isDigit_of_isLetter hc])

/-- **A number** goes as far as digits do. -/
theorem tokenAt_number (hc : isDigit c) :
    TokenAt (c :: text) .NUMBER ((c :: text).takeWhile isDigit) := by
  have hall : ∀ d ∈ (c :: text).takeWhile isDigit, isDigit d :=
    fun d hd => List.mem_takeWhile_imp hd
  have htoken : IsToken .NUMBER ((c :: text).takeWhile isDigit) := by
    rw [List.takeWhile_cons_of_pos hc] at hall ⊢
    exact .number hc fun d hd => hall d (List.mem_cons_of_mem _ hd)
  refine .token (longest_takeWhile ⟨_, htoken⟩ ?_) htoken
  rintro w ⟨rest, hw⟩ ⟨t, ht⟩ d hd
  cases w with
  | nil => exact absurd hd List.not_mem_nil
  | cons c' w =>
      cases hw
      rcases ht.cases_head with ⟨hno, -⟩ | ⟨hletter, -⟩ | ⟨-, hrun⟩
      · exact absurd hc (by simp [(Bool.or_eq_false_iff.mp hno).2])
      · exact absurd hc (by simp [not_isDigit_of_isLetter hletter])
      · rcases List.mem_cons.mp hd with rfl | hd
        · exact hc
        · exact hrun d hd

/-- **An error**: a character that starts no token. -/
theorem tokenAt_error (hchar : isWordChar c = false) (hsymbol : ∀ type, ([c], type) ∉ symbols) :
    TokenAt (c :: text) .ERROR [c] := by
  have hstart : ∀ s ∈ symbols, s.1.take 1 ∈ symbols.map Prod.fst := by decide
  refine .error fun w hw t htoken => ?_
  cases w with
  | nil => exact htoken.ne_nil rfl
  | cons c' w =>
      obtain ⟨rfl, -⟩ := List.cons_prefix_cons.mp hw
      obtain ⟨s, hs, hsc⟩ := List.mem_map.mp (hstart _ (htoken.symbol_of_head hchar))
      have hsc : s.1 = [c'] := hsc
      exact hsymbol s.2 (hsc ▸ hs)

/-- What `>` starts has one of two types. -/
theorem not_tokenAt_greater (hgreater : type ≠ .GREATER) (heq : type ≠ .GREATER_EQ)
    (herror : type ≠ .ERROR) : ¬ TokenAt (byte '>' :: text) type (byte '>' :: word) := by
  have hall : ∀ s ∈ symbols, s.1.head? = some (byte '>') → s.2 = .GREATER ∨ s.2 = .GREATER_EQ := by
    decide
  intro h
  cases h with
  | token _ htoken =>
      rcases hall _ (htoken.symbol_of_head (by decide)) rfl with h | h
      · exact hgreater h
      · exact heq h
  | error _ => exact herror rfl

/-- What `<=` starts is longer than `<`. -/
theorem not_tokenAt_less (herror : type ≠ .ERROR) :
    ¬ TokenAt (byte '<' :: byte '=' :: text) type [byte '<'] := by
  intro h
  cases h with
  | token hlongest _ =>
      have hle := hlongest.maximal [byte '<', byte '='] ⟨text, rfl⟩
        ⟨.LESS_EQ, .symbol (by decide)⟩
      exact absurd hle (by decide)
  | error _ => exact herror rfl

end Language

/-! ## What the reader does -/

section Reading

variable (kind : UInt8 → Bool)

/-- One step of the reader. -/
theorem readerAdvance_one {reader : Reader} {c : UInt8} {text : Range}
    (h : reader.range.text = c :: text) :
    (readerAdvance reader 1).1 = ⟨positionIngest reader.pos c, reader.range.ptr + 1, text⟩ := by
  simp only [readerAdvance, h]

/-- The loops find a run, -/
theorem readWhile_size (text : Range) (reader : Reader) :
    (readWhile kind text reader).2 = (text.takeWhile kind).length := by
  induction text generalizing reader with
  | nil => rfl
  | cons c text ih =>
      by_cases hc : kind c
      · rw [readWhile, if_pos hc, List.takeWhile_cons_of_pos hc, List.length_cons]
        exact congrArg (· + 1) (ih _)
      · rw [readWhile, if_neg hc, List.takeWhile_cons_of_neg hc]
        rfl

/-- and stop at its end. -/
theorem readWhile_range {text : Range} {reader : Reader} (h : reader.range.text = text) :
    (readWhile kind text reader).1.range =
      ⟨reader.range.ptr + (text.takeWhile kind).length, text.dropWhile kind⟩ := by
  induction text generalizing reader with
  | nil =>
      obtain ⟨pos, ptr, _⟩ := reader
      cases h
      rfl
  | cons c text ih =>
      by_cases hc : kind c
      · rw [readWhile, if_pos hc, List.takeWhile_cons_of_pos hc, List.dropWhile_cons_of_pos hc,
          List.length_cons, readerAdvance_one h]
        show (readWhile kind text _).1.range = _
        rw [ih rfl]
        simp only [Nat.add_assoc, Nat.add_comm 1]
      · rw [readWhile, if_neg hc, List.takeWhile_cons_of_neg hc, List.dropWhile_cons_of_neg hc]
        obtain ⟨pos, ptr, _⟩ := reader
        cases h
        rfl

/-- The text of a word or a number. -/
theorem take_readWhile (text : Range) (reader : Reader) :
    text.take (readWhile kind text reader).2 = text.takeWhile kind := by
  rw [readWhile_size]
  exact (List.prefix_iff_eq_take.mp (List.takeWhile_prefix kind)).symm

end Reading

/-- Looking for a `=`. -/
theorem readerIsEq_of_head {reader : Reader} {text start : Range} {token : TextToken}
    (hreader : reader.range.text = text) (heq : text.head? = some (byte '=')) :
    readerIsEq reader token start = (true, (readerAdvance reader 1).1,
      { token with range := { token.range with text := start.take 2 } }) := by
  unfold readerIsEq
  rw [hreader]
  cases text with
  | nil => cases heq
  | cons c text =>
      cases heq
      rfl

theorem readerIsEq_of_not_head {reader : Reader} {text start : Range} {token : TextToken}
    (hreader : reader.range.text = text) (heq : text.head? ≠ some (byte '=')) :
    readerIsEq reader token start = (false, reader, token) := by
  unfold readerIsEq
  rw [hreader]
  cases text with
  | nil => rfl
  | cons c text => exact if_neg fun hc => heq (congrArg some hc)

/-- The case of `<` where a `=` is. -/
theorem lessThanCase_of_head {reader : Reader} {text start : Range} {token : TextToken}
    (hreader : reader.range.text = text) (heq : text.head? = some (byte '=')) :
    lessThanCase start reader token =
      ({ token with type := .LESS_EQ, range := { token.range with text := start.take 2 } },
        (readerAdvance reader 1).1) := by
  unfold lessThanCase
  dsimp only
  rw [readerIsEq_of_head hreader heq]
  rfl

theorem lessThanCase_of_not_head {reader : Reader} {text start : Range} {token : TextToken}
    (hreader : reader.range.text = text) (heq : text.head? ≠ some (byte '=')) :
    lessThanCase start reader token = ({ token with type := .LESS_THAN }, reader) := by
  unfold lessThanCase
  dsimp only
  rw [readerIsEq_of_not_head hreader heq]
  rfl

/-! ## The result -/

section Result

variable {reader : Reader} {c : UInt8} {text : Range}

/-- A character that is always one token. -/
theorem tokenAt_single_iff {type : TokenType} (hsymbol : ([c], type) ∈ symbols)
    (hone : ¬ (c = byte '=' ∨ c = byte '>' ∨ c = byte '<')) :
    TokenAt (c :: text) type [c] ↔
      c ≠ byte '>' ∧ ¬ (c = byte '<' ∧ text.head? = some (byte '=')) :=
  iff_of_true (tokenAt_single hsymbol fun h => absurd h hone)
    ⟨fun h => hone (.inr (.inl h)), fun h => hone (.inr (.inr h.1))⟩

/-- **The switch** finds the token, unless it starts with `>` or is `<=`. -/
theorem tokenSwitch_tokenAt_iff (h : reader.range.text = c :: text) :
    TokenAt (c :: text) (tokenSwitch reader c text).1.type
        (tokenSwitch reader c text).1.range.text ↔
      c ≠ byte '>' ∧ ¬ (c = byte '<' ∧ text.head? = some (byte '=')) := by
  have hnext : (readerAdvance reader 1).1.range.text = text := by
    rw [readerAdvance_one h]
  fun_cases tokenSwitch reader c text
  iterate 8
    · subst c
      exact tokenAt_single_iff (of_decide_eq_true rfl) (by decide)
  · -- `=`
    rename_i isEq _ _ _ _ _ hread
    subst c
    refine iff_of_true ?_ ⟨by decide, fun h => absurd h.1 (by decide)⟩
    by_cases heq : text.head? = some (byte '=')
    · obtain ⟨rfl, hpair⟩ := Prod.mk.inj (hread.symm.trans (readerIsEq_of_head hnext heq))
      obtain ⟨rfl, rfl⟩ := Prod.mk.inj hpair
      cases text with
      | nil => cases heq
      | cons c' text =>
          cases heq
          exact tokenAt_pair (of_decide_eq_true rfl)
    · obtain ⟨rfl, hpair⟩ := Prod.mk.inj (hread.symm.trans (readerIsEq_of_not_head hnext heq))
      obtain ⟨rfl, rfl⟩ := Prod.mk.inj hpair
      exact tokenAt_single (of_decide_eq_true rfl) fun _ => heq
  · -- `>`: whatever comes next, the type is one of `<`
    rename_i hread _
    subst c
    refine iff_of_false ?_ fun hand => hand.1 rfl
    have hhead : (byte '>' :: text).head? ≠ some (byte '=') := by
      rw [List.head?_cons]
      decide
    obtain ⟨rfl, hpair⟩ := Prod.mk.inj (hread.symm.trans (readerIsEq_of_not_head h hhead))
    obtain ⟨rfl, rfl⟩ := Prod.mk.inj hpair
    by_cases heq : text.head? = some (byte '=')
    · rw [lessThanCase_of_head hnext heq]
      show ¬ TokenAt _ .LESS_EQ (byte '>' :: text.take 1)
      exact not_tokenAt_greater (by decide) (by decide) (by decide)
    · rw [lessThanCase_of_not_head hnext heq]
      show ¬ TokenAt _ .LESS_THAN [byte '>']
      exact not_tokenAt_greater (by decide) (by decide) (by decide)
  · -- `<`: the `=` is looked for in its own place
    subst c
    have hhead : (byte '<' :: text).head? ≠ some (byte '=') := by
      rw [List.head?_cons]
      decide
    rw [lessThanCase_of_not_head h hhead]
    by_cases heq : text.head? = some (byte '=')
    · refine iff_of_false ?_ fun hand => hand.2 ⟨rfl, heq⟩
      cases text with
      | nil => cases heq
      | cons c' text =>
          cases heq
          show ¬ TokenAt _ .LESS_THAN [byte '<']
          exact not_tokenAt_less (by decide)
    · exact iff_of_true (tokenAt_single (of_decide_eq_true rfl) fun _ => heq)
        ⟨by decide, fun hand => heq hand.2⟩
  · subst c
    exact tokenAt_single_iff (of_decide_eq_true rfl) (by decide)
  · rename_i hgreater hless _ hletter _ _ hread
    refine iff_of_true ?_ ⟨hgreater, fun hand => hless hand.1⟩
    unfold readId at hread
    dsimp only at hread
    rw [h, take_readWhile] at hread
    cases hread
    exact tokenAt_word hletter
  · rename_i hgreater hless _ _ hdigit _ _ hread
    refine iff_of_true ?_ ⟨hgreater, fun hand => hless hand.1⟩
    unfold readNum at hread
    dsimp only at hread
    rw [h, take_readWhile] at hread
    cases hread
    exact tokenAt_number hdigit
  · rename_i h₁ h₂ h₃ h₄ h₅ h₆ h₇ h₈ hassign hgreater hless hsemi hletter hdigit
    refine iff_of_true ?_ ⟨hgreater, fun hand => hless hand.1⟩
    apply tokenAt_error
    · unfold isWordChar
      rw [Bool.or_eq_false_iff]
      exact ⟨Bool.eq_false_iff.mpr hletter, Bool.eq_false_iff.mpr hdigit⟩
    · intro type hmem
      simp [symbols, *] at hmem

end Result

section Ptr

variable (reader : Reader) (token : TextToken) (start : Range)

/-- `_reader_isEq` does not move the start of the token, -/
theorem readerIsEq_ptr : (readerIsEq reader token start).2.2.range.ptr = token.range.ptr := by
  unfold readerIsEq
  split
  · rfl
  · split <;> rfl

/-- nor does the case of `<`. -/
theorem lessThanCase_ptr : (lessThanCase start reader token).1.range.ptr = token.range.ptr := by
  have hptr := readerIsEq_ptr reader { token with type := .LESS_THAN } start
  unfold lessThanCase
  dsimp only
  split
  · exact hptr
  · exact hptr

/-- The token starts where the reader stands. -/
theorem tokenSwitch_ptr (c : UInt8) (text : Range) :
    (tokenSwitch reader c text).1.range.ptr = reader.range.ptr := by
  fun_cases tokenSwitch reader c text
  iterate 8 rfl
  · rename_i hread
    have hptr := congrArg (fun r => r.2.2.range.ptr) hread
    dsimp only at hptr
    rw [readerIsEq_ptr] at hptr
    dsimp only
    split <;> exact hptr.symm
  · rename_i isEq _ _ hread _
    have hptr := congrArg (fun r => r.2.2.range.ptr) hread
    dsimp only at hptr
    rw [readerIsEq_ptr] at hptr
    rw [lessThanCase_ptr]
    cases isEq <;> exact hptr.symm
  · exact lessThanCase_ptr _ _ _
  · rfl
  · rename_i hread
    exact (congrArg (fun r => r.2.range.ptr) hread).symm
  · rename_i hread
    exact (congrArg (fun r => r.2.range.ptr) hread).symm
  · rfl

end Ptr

/-- **Tokens are read by longest match** unless `>` or `<=` comes next. -/
theorem tokenNext_longest_iff (reader : Reader) :
    ReadsToken reader ↔
      (reader.range.text.dropWhile isWhite).head? ≠ some (byte '>') ∧
        ¬ [byte '<', byte '='] <+: reader.range.text.dropWhile isWhite := by
  have hskip : (readerSkipWhite reader).range =
      ⟨reader.range.ptr + (reader.range.text.takeWhile isWhite).length,
        reader.range.text.dropWhile isWhite⟩ := readWhile_range isWhite rfl
  have hsize : ReadsToken reader ↔ TokenAt (reader.range.text.dropWhile isWhite)
      (tokenNext reader).1.type (tokenNext reader).1.range.text := by
    refine ⟨ReadsToken.tokenAt, fun h => ⟨h, fun hne => ?_⟩⟩
    unfold tokenNext
    dsimp only
    rw [hskip]
    cases htext : reader.range.text.dropWhile isWhite with
    | nil => exact absurd htext hne
    | cons c text =>
        show (tokenSwitch _ c text).1.range.ptr = _
        rw [tokenSwitch_ptr, hskip]
  rw [hsize]
  unfold tokenNext
  dsimp only
  rw [hskip]
  cases htext : reader.range.text.dropWhile isWhite with
  | nil => exact iff_of_true .eof ⟨by simp, by simp⟩
  | cons c text =>
      have hreader : (readerSkipWhite reader).range.text = c :: text := by
        rw [hskip]
        exact htext
      refine (tokenSwitch_tokenAt_iff hreader).trans (and_congr ?_ (not_congr ?_))
      · rw [List.head?_cons, ne_eq, ne_eq, Option.some.injEq]
      · rw [List.cons_prefix_cons]
        cases text with
        | nil => simp
        | cons c' text => simp [List.cons_prefix_cons, eq_comm]

/-- `>=` is read as `<=`. -/
theorem tokenNext_not_longest :
    ¬ ReadsToken ⟨{}, ⟨0, [byte '>', byte '=', byte '1']⟩⟩ := by
  intro h
  have htype : (tokenNext ⟨{}, ⟨0, [byte '>', byte '=', byte '1']⟩⟩).1.type = .LESS_EQ := by
    decide
  have htoken := h.tokenAt
  rw [htype] at htoken
  exact not_tokenAt_greater (by decide) (by decide) (by decide) htoken
