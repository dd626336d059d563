/-
# Texts as the tokenizer reads them

A layout of tokens is a text that consists of them and of white space, such that each token is
the longest one where it starts.  The tokenizer reads the tokens of a layout, except that it
takes `>` and `>=` for `<` and `<=`, and that it does not come past a `<` (`reads_layout`).
-/
import MCompiler.ParserStatements
import MCompiler.TokenizerProgress
import MCompiler.ParserChains

/-! ## Layouts -/

/-- What the tokenizer takes a token for. -/
def TokenType.asRead : TokenType → TokenType
  | .GREATER => .LESS_THAN
  | .GREATER_EQ => .LESS_EQ
  | type => type

/-- The token as it is read. -/
def Token.asRead (t : Token) : Token := ⟨t.type.asRead, t.range⟩

/-- The tokens that the tokenizer does not come past. -/
def Token.IsLess (t : Token) : Prop := t.type = .LESS_THAN ∨ t.type = .LESS_EQ

/-- No token is longer than `word` where the text starts with it. -/
def LongestToken (text word : Range) : Prop := Longest (fun w => ∃ t, IsToken t w) text word

/-- The text consists of the tokens and white space. -/
inductive IsLayout : List Token → Range → Prop
  | nil {white : Range} : (∀ c ∈ white, isWhite c) → IsLayout [] white
  | cons {t : Token} {ts : List Token} {white text : Range} : (∀ c ∈ white, isWhite c) →
      IsToken t.type t.range → LongestToken (t.range ++ text) t.range → IsLayout ts text →
      IsLayout (t :: ts) (white ++ (t.range ++ text))

/-- Tokens with a space before each. -/
def spaced (ts : List Token) : Range := ts.flatMap fun t => byte ' ' :: t.range

/-! ## The words of the language -/

section Words

variable {type type' : TokenType} {c : UInt8} {word text : Range}

/-- There is no white space in a token. -/
theorem IsToken.not_white (h : IsToken type word) : ∀ d ∈ word, isWhite d = false := by
  have hsymbols : symbols.all fun s => s.1.all fun d => !isWhite d := by decide
  have hwordChar : ∀ d, isWordChar d → isWhite d = false := by
    intro d hd
    rw [Bool.eq_false_iff]
    intro hwhite
    simp only [isWhite, Bool.or_eq_true, decide_eq_true_eq] at hwhite
    rcases hwhite with ((rfl | rfl) | rfl) | rfl <;> exact absurd hd (by decide)
  cases word with
  | nil => exact fun d hd => absurd hd List.not_mem_nil
  | cons c word =>
      rcases h.cases_head with ⟨-, hsymbol⟩ | ⟨hc, hword⟩ | ⟨hc, hword⟩
      · intro d hd
        simpa using List.all_eq_true.mp (List.all_eq_true.mp hsymbols _ hsymbol) d hd
      · intro d hd
        rcases List.mem_cons.mp hd with rfl | hd
        · exact hwordChar d (by rw [isWordChar, hc, Bool.true_or])
        · exact hwordChar d (hword d hd)
      · intro d hd
        rcases List.mem_cons.mp hd with rfl | hd
        · exact hwordChar d (by rw [isWordChar, hc, Bool.or_true])
        · exact hwordChar d (by rw [isWordChar, hword d hd, Bool.or_true])

/-- A word is a token of one type. -/
theorem IsToken.unique (h : IsToken type word) (h' : IsToken type' word) : type = type' := by
  have hsymbols : ∀ s ∈ symbols, ∀ s' ∈ symbols, s.1 = s'.1 → s.2 = s'.2 := by decide
  have hkeywords : ∀ s ∈ keywords, ∀ s' ∈ keywords, s.1 = s'.1 → s.2 = s'.2 := by decide
  obtain ⟨c, word, rfl⟩ := List.exists_cons_of_ne_nil h.ne_nil
  by_cases hc : isWordChar c = false
  · exact hsymbols _ (h.symbol_of_head hc) _ (h'.symbol_of_head hc) rfl
  · have hsymbol : ∀ t, (c :: word, t) ∉ symbols := fun t ht => hc (symbols_head ht)
    have hdigit : isLetter c → ¬ isDigit c := fun hl hd => by
      rw [not_isDigit_of_isLetter hl] at hd
      cases hd
    have hletter : ∀ t, (c :: word, t) ∈ keywords → isLetter c := by
      intro t ht
      obtain ⟨c', w, hw, hl, -⟩ := keywords_isWord ht
      cases hw
      exact hl
    cases h with
    | symbol h => exact absurd h (hsymbol _)
    | keyword h =>
        cases h' with
        | symbol h' => exact absurd h' (hsymbol _)
        | keyword h' => exact hkeywords _ h _ h' rfl
        | id _ _ hno => exact absurd h (hno _)
        | number hd _ => exact absurd hd (hdigit (hletter _ h))
    | id hl _ hno =>
        cases h' with
        | symbol h' => exact absurd h' (hsymbol _)
        | keyword h' => exact absurd h' (hno _)
        | id _ _ _ => rfl
        | number hd _ => exact absurd hd (hdigit hl)
    | number hd _ =>
        cases h' with
        | symbol h' => exact absurd h' (hsymbol _)
        | keyword h' => exact absurd hd (hdigit (hletter _ h'))
        | id hl _ _ => exact absurd hd (hdigit hl)
        | number _ _ => rfl

/-- A token before white space is the longest one. -/
theorem IsToken.longest (h : IsToken type word) (htext : ∀ c ∈ text.head?, isWhite c) :
    LongestToken (word ++ text) word := by
  refine ⟨List.prefix_append _ _, ⟨type, h⟩, fun w hw ⟨t, ht⟩ => ?_⟩
  by_contra hlt
  obtain ⟨rest, rfl⟩ := List.prefix_of_prefix_length_le (List.prefix_append word text) hw
    (Nat.le_of_not_le hlt)
  cases rest with
  | nil => exact hlt (by simp)
  | cons c rest =>
      have hc : text.head? = some c := by
        rw [List.prefix_append_right_inj] at hw
        obtain ⟨text, rfl⟩ := hw
        rfl
      have hwhite := htext c hc
      rw [ht.not_white c (by simp)] at hwhite
      cases hwhite

end Words

/-- Spaces make a layout. -/
theorem isLayout_spaced {ts : List Token} (h : ∀ t ∈ ts, IsToken t.type t.range) :
    IsLayout ts (spaced ts) := by
  induction ts with
  | nil => exact .nil fun c hc => absurd hc List.not_mem_nil
  | cons t ts ih =>
      have hrest := ih fun t ht => h t (List.mem_cons_of_mem _ ht)
      have htoken := h t List.mem_cons_self
      have hwhite : ∀ c ∈ [byte ' '], isWhite c := List.forall_mem_singleton.mpr (by decide)
      refine .cons hwhite htoken (htoken.longest ?_) hrest
      cases ts with
      | nil => exact fun c hc => by cases hc
      | cons t' ts =>
          intro c hc
          cases hc
          decide

theorem IsToken.type_ne_error {type : TokenType} {word : Range} (h : IsToken type word) :
    type ≠ .ERROR := by
  have hsymbols : ∀ s ∈ symbols, s.2 ≠ .ERROR := by decide
  have hkeywords : ∀ s ∈ keywords, s.2 ≠ .ERROR := by decide
  cases h with
  | symbol h => exact hsymbols _ h
  | keyword h => exact hkeywords _ h
  | id _ _ _ => exact TokenType.noConfusion
  | number _ _ => exact TokenType.noConfusion

/-! ## Reading a layout -/

section Reading

variable {reader : Reader} {t : Token} {c : UInt8} {type : TokenType} {text rest white word : Range}

theorem tokenSwitch_greater (hreader : reader.range.text = byte '>' :: rest) :
    tokenSwitch reader (byte '>') rest =
      lessThanCase (byte '>' :: rest) (readerAdvance reader 1).1
        ⟨.GREATER, reader.pos, reader.range.ptr, [byte '>']⟩ := by
  have hread : readerIsEq reader ⟨.GREATER, reader.pos, reader.range.ptr, [byte '>']⟩
      (byte '>' :: rest) = (false, reader, _) := readerIsEq_of_not_head hreader (by simp; decide)
  have hswitch : ∀ r, r = readerIsEq reader ⟨.GREATER, reader.pos, reader.range.ptr, [byte '>']⟩
      (byte '>' :: rest) → tokenSwitch reader (byte '>') rest =
        lessThanCase (byte '>' :: rest) (readerAdvance r.2.1 1).1
          (if r.1 then { r.2.2 with type := .GREATER_EQ } else r.2.2) := by
    rintro r rfl
    rfl
  exact hswitch _ hread.symm

/-- The tokens that start with `>`. -/
theorem IsToken.greater (h : IsToken type (byte '>' :: word)) :
    (type = .GREATER ∧ word = []) ∨ (type = .GREATER_EQ ∧ word = [byte '=']) := by
  have hall : ∀ s ∈ symbols, s.1.head? = some (byte '>') →
      (s.2 = .GREATER ∧ s.1.tail = []) ∨ (s.2 = .GREATER_EQ ∧ s.1.tail = [byte '=']) := by decide
  exact hall _ (h.symbol_of_head (by decide)) rfl

/-- No other token changes. -/
theorem IsToken.asRead_eq (h : IsToken type (c :: word)) (hc : c ≠ byte '>') :
    type.asRead = type := by
  have hsymbols : ∀ s ∈ symbols, s.1.head? ≠ some (byte '>') → s.2.asRead = s.2 := by decide
  have hkeywords : ∀ s ∈ keywords, s.2.asRead = s.2 := by decide
  cases h with
  | symbol h => exact hsymbols _ h fun hhead => hc (Option.some.inj hhead)
  | keyword h => exact hkeywords _ h
  | id _ _ _ => rfl
  | number _ _ => rfl

/-- The tokens that start with `<`. -/
theorem IsToken.less (h : IsToken type (byte '<' :: word)) :
    type = .LESS_THAN ∨ type = .LESS_EQ := by
  have hall : ∀ s ∈ symbols, s.1.head? = some (byte '<') → s.2 = .LESS_THAN ∨ s.2 = .LESS_EQ := by
    decide
  exact hall _ (h.symbol_of_head (by decide)) rfl

/-- What the switch returns for a token, and what is left. -/
def SwitchReads (type : TokenType) (word text : Range) (r : TextToken × Reader) : Prop :=
  r.1.type = type.asRead ∧ r.1.range.text = word ∧ r.2.range.text = text

/-- `>` and `>=` are read as `<` and `<=`. -/
theorem switchReads_greater (hreader : reader.range.text = byte '>' :: rest)
    (hrest : rest = word ++ text) (htoken : IsToken type (byte '>' :: word))
    (hlongest : LongestToken (byte '>' :: rest) (byte '>' :: word)) :
    SwitchReads type (byte '>' :: word) text (tokenSwitch reader (byte '>') rest) := by
  have hnext : (readerAdvance reader 1).1.range.text = rest := by rw [readerAdvance_one hreader]
  rw [tokenSwitch_greater hreader]
  rcases htoken.greater with ⟨rfl, rfl⟩ | ⟨rfl, rfl⟩
  · obtain rfl : rest = text := hrest
    have hhead : rest.head? ≠ some (byte '=') := by
      intro hhead
      obtain ⟨rest', rfl⟩ := List.head?_eq_some_iff.mp hhead
      have hle := hlongest.maximal [byte '>', byte '='] ⟨rest', rfl⟩
        ⟨.GREATER_EQ, .symbol (by decide)⟩
      exact absurd hle (by decide)
    rw [lessThanCase_of_not_head hnext hhead]
    exact ⟨rfl, rfl, hnext⟩
  · obtain rfl : rest = byte '=' :: text := hrest
    rw [lessThanCase_of_head hnext rfl]
    exact ⟨rfl, rfl, by rw [readerAdvance_one hnext]⟩

/-- **The switch reads a token**, and steps over it unless it starts with `<`. -/
theorem switchReads (hreader : reader.range.text = c :: rest) (hrest : rest = word ++ text)
    (htoken : IsToken type (c :: word)) (hlongest : LongestToken (c :: rest) (c :: word))
    (hless : c ≠ byte '<') : SwitchReads type (c :: word) text (tokenSwitch reader c rest) := by
  by_cases hgreater : c = byte '>'
  · subst hgreater
    exact switchReads_greater hreader hrest htoken hlongest
  have htokenAt := (tokenSwitch_tokenAt_iff hreader).mpr ⟨hgreater, fun h => hless h.1⟩
  -- the token is the longest one, and so this one
  have hread : (tokenSwitch reader c rest).1.range.text = c :: word ∧
      (tokenSwitch reader c rest).1.type = type := by
    generalize (tokenSwitch reader c rest).1.range.text = w at htokenAt ⊢
    generalize (tokenSwitch reader c rest).1.type = type' at htokenAt ⊢
    cases htokenAt with
    | token hlong htok =>
        obtain rfl := hlong.unique hlongest
        exact ⟨rfl, htok.unique htoken⟩
    | error h => exact absurd htoken (h _ hlongest.isPrefix _)
  refine ⟨hread.2.trans (htoken.asRead_eq hgreater).symm, hread.1, ?_⟩
  rcases tokenSwitch_spec hreader hless with ⟨herror, -, -⟩ | hspec
  · rw [hread.2] at herror
    exact absurd herror htoken.type_ne_error
  · obtain ⟨rest', hsplit, hrest'⟩ := hspec.split
    rw [hread.1, hrest, List.cons_append, List.cons.injEq] at hsplit
    rw [hrest', List.append_cancel_left hsplit.2]

/-- **A token of a layout is read**, if it is neither `<` nor `<=`. -/
theorem readToken_layout (htext : reader.range.text = white ++ (t.range ++ text))
    (hwhite : ∀ c ∈ white, isWhite c) (htoken : IsToken t.type t.range)
    (hlongest : LongestToken (t.range ++ text) t.range) (hless : ¬ t.IsLess) :
    ∃ reader', readToken reader = (t.asRead, reader') ∧ reader'.range.text = text := by
  obtain ⟨c, word, hword⟩ := List.exists_cons_of_ne_nil htoken.ne_nil
  rw [hword] at htoken hlongest htext
  have hc : c ≠ byte '<' := by
    rintro rfl
    exact hless htoken.less
  have hskip : (readerSkipWhite reader).range.text = c :: (word ++ text) := by
    have hc := htoken.not_white c List.mem_cons_self
    have hrange : (readerSkipWhite reader).range = _ := readWhile_range isWhite rfl
    rw [hrange, htext, List.dropWhile_append_of_pos hwhite, List.cons_append,
      List.dropWhile_cons_of_neg (by simp [hc])]
  have hreads := switchReads hskip rfl htoken hlongest hc
  refine ⟨(tokenSwitch (readerSkipWhite reader) c (word ++ text)).2, ?_, hreads.2.2⟩
  unfold readToken tokenNext
  dsimp only
  rw [hskip]
  dsimp only
  rw [hreads.1, hreads.2.1, Token.asRead, hword]

/-- **The tokens of a layout are read.** -/
theorem reads_layout {ts : List Token} (h : IsLayout ts text)
    (hless : ∀ t ∈ ts, ¬ t.IsLess) (htext : reader.range.text = text) :
    ∃ reader', Reads readToken reader (ts.map Token.asRead) reader' ∧
      ∀ c ∈ reader'.range.text, isWhite c := by
  induction h generalizing reader with
  | nil hwhite => exact ⟨reader, rfl, htext ▸ hwhite⟩
  | cons hwhite htoken hlongest _ ih =>
      obtain ⟨r, hread, hr⟩ := readToken_layout htext hwhite htoken hlongest
        (hless _ List.mem_cons_self)
      obtain ⟨reader', hreads, hrest⟩ := ih (fun t ht => hless t (List.mem_cons_of_mem _ ht)) hr
      exact ⟨reader', ⟨r, hread, hreads⟩, hrest⟩

end Reading
