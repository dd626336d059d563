/-
# Reading all tokens of a text

`token_dumpAll` reads tokens until the end or an error.  A plain `<` is returned without
stepping over it, so that it is returned again by the next call.

* `atTokenEnd_iff` : a call leaves the reader at the end of the token unless the token is
  `<`;
* `tokenDumpAll_progress_iff` : the loop ends, and the tokens tile the text, exactly if
  no `<` stands before the first character that starts no token.
-/
import Mathlib.Logic.Function.Iterate
import MCompiler.TokenizerLongest

/-! ## The loop -/

/-- The loop of `token_dumpAll`, with the tokens dumped and the reader at the end; `none`
if it takes more than `fuel` passes. -/
def tokenDumpLoop : ℕ → Reader → Option (List TextToken × Reader)
  | 0, _ => none
  | fuel + 1, reader =>
      let (token, reader) := tokenNext reader
      if token.type ≠ .ERROR ∧ token.type ≠ .EEOF then
        (tokenDumpLoop fuel reader).map (fun dumped => (token :: dumped.1, dumped.2))
      else some ([token], reader)

/-- The reader at the start of a string. -/
def readerOf (text : Range) : Reader := { range := ⟨0, text⟩ }

/-- `token_dumpAll`. -/
def tokenDumpAll (fuel : ℕ) (text : Range) : Option (List TextToken × Reader) :=
  tokenDumpLoop fuel (readerOf text)

/-! ## Progress -/

/-- A call of `token_next` that returns a token leaves the reader at its end. -/
def AtTokenEnd (reader : Reader) : Prop :=
  (tokenNext reader).1.type ≠ .EEOF → (tokenNext reader).1.type ≠ .ERROR →
    (tokenNext reader).2.range.ptr =
      (tokenNext reader).1.range.ptr + (tokenNext reader).1.range.text.length

/-- From the address `ptr` on the text consists of white space and the tokens in turn, and
what follows the last one is left to the reader. -/
inductive Tiles : ℕ → Range → List TextToken → Reader → Prop
  | last {ptr white rest token reader} : (∀ c ∈ white, isWhite c) →
      token.type = .EEOF ∨ token.type = .ERROR → reader.range = ⟨ptr + white.length, rest⟩ →
      Tiles ptr (white ++ rest) [token] reader
  | cons {ptr white rest token tokens reader} : (∀ c ∈ white, isWhite c) →
      token.type ≠ .EEOF → token.type ≠ .ERROR → token.range.ptr = ptr + white.length →
      Tiles (ptr + white.length + token.range.text.length) rest tokens reader →
      Tiles ptr (white ++ token.range.text ++ rest) (token :: tokens) reader

/-- **Progress on a text**: every call leaves the reader at the end of its token, and the
loop of `token_dumpAll` ends with tokens that tile the text. -/
structure Progress (text : Range) : Prop where
  atTokenEnd : ∀ calls, AtTokenEnd ((fun reader => (tokenNext reader).2)^[calls] (readerOf text))
  tiles : ∃ fuel tokens reader, tokenDumpAll fuel text = some (tokens, reader) ∧
    Tiles 0 text tokens reader

/-- The characters that white space and tokens consist of. -/
def isTokenChar (c : UInt8) : Bool :=
  isWhite c || isWordChar c || symbols.any (fun s => s.1.head? = some c)

/-! ## One call -/

/-- What the switch returns at a character other than `<`: an error where it stands, or a
token that it has stepped over. -/
structure SwitchSpec (start : ℕ) (text : Range) (result : TextToken × Reader) : Prop where
  ptr : result.1.range.ptr = start
  type : result.1.type ≠ .EEOF ∧ result.1.type ≠ .ERROR
  chars : ∀ d ∈ result.1.range.text, isTokenChar d ∧ d ≠ byte '<'
  ne_nil : result.1.range.text ≠ []
  split : ∃ rest, text = result.1.range.text ++ rest ∧
    result.2.range = ⟨start + result.1.range.text.length, rest⟩

section Switch

variable {reader : Reader} {c : UInt8} {text : Range}

theorem isTokenChar_of_word (h : isWordChar c) : isTokenChar c := by
  simp [isTokenChar, h]

/-- A character that is one token. -/
theorem switchSpec_single {type : TokenType} (hreader : reader.range.text = c :: text)
    (hsymbol : isTokenChar c ∧ c ≠ byte '<') (pos : Position)
    (htype : type ≠ .EEOF ∧ type ≠ .ERROR) :
    SwitchSpec reader.range.ptr (c :: text)
      (⟨type, pos, reader.range.ptr, [c]⟩, (readerAdvance reader 1).1) where
  ptr := rfl
  type := htype
  chars := by simpa using hsymbol
  ne_nil := List.cons_ne_nil _ _
  split := ⟨text, rfl, by rw [readerAdvance_one hreader]; rfl⟩

/-- Two characters that are one token. -/
theorem switchSpec_pair {type : TokenType} (hreader : reader.range.text = c :: text)
    (hsymbol : isTokenChar c ∧ c ≠ byte '<') (heq : text.head? = some (byte '='))
    (pos : Position) (htype : type ≠ .EEOF ∧ type ≠ .ERROR) :
    SwitchSpec reader.range.ptr (c :: text)
      (⟨type, pos, reader.range.ptr, (c :: text).take 2⟩,
        (readerAdvance (readerAdvance reader 1).1 1).1) := by
  obtain ⟨text, rfl⟩ : ∃ t, text = byte '=' :: t := by
    cases text with
    | nil => cases heq
    | cons d t => exact ⟨t, by rw [Option.some.inj heq]⟩
  constructor
  · rfl
  · exact htype
  · intro d hd
    rcases List.mem_cons.mp hd with rfl | hd
    · exact hsymbol
    · rw [List.mem_singleton.mp hd]
      decide
  · exact List.cons_ne_nil _ _
  · refine ⟨text, rfl, ?_⟩
    rw [readerAdvance_one hreader, readerAdvance_one rfl]
    rfl

/-- A run of characters of one kind. -/
theorem switchSpec_run {kind : UInt8 → Bool} {type : TokenType}
    (hreader : reader.range.text = c :: text) (hc : kind c)
    (hkind : ∀ d, kind d → isWordChar d) (pos : Position)
    (htype : type ≠ .EEOF ∧ type ≠ .ERROR) :
    SwitchSpec reader.range.ptr (c :: text)
      (⟨type, pos, reader.range.ptr, (c :: text).takeWhile kind⟩,
        (readWhile kind (c :: text) reader).1) where
  ptr := rfl
  type := htype
  chars := by
    intro d hd
    have hword := hkind d (List.mem_takeWhile_imp hd)
    refine ⟨isTokenChar_of_word hword, ?_⟩
    rintro rfl
    exact absurd hword (by decide)
  ne_nil := by simp [List.takeWhile_cons_of_pos hc]
  split := ⟨(c :: text).dropWhile kind, (List.takeWhile_append_dropWhile).symm,
    readWhile_range kind hreader⟩

theorem wordType_spec (word : Range) : wordType word ≠ .EEOF ∧ wordType word ≠ .ERROR := by
  have hall : ∀ s ∈ keywords, s.2 ≠ .EEOF ∧ s.2 ≠ .ERROR := by decide
  unfold wordType
  cases hlookup : keywords.lookup word with
  | none => exact ⟨by decide, by decide⟩
  | some type =>
      obtain ⟨l₁, l₂, hkeywords, -⟩ := List.lookup_eq_some_iff.mp hlookup
      exact hall (word, type) (hkeywords ▸ List.mem_append_right _ List.mem_cons_self)

/-- **The switch**, at another character than `<`. -/
theorem tokenSwitch_spec (hreader : reader.range.text = c :: text) (hless : c ≠ byte '<') :
    ((tokenSwitch reader c text).1.type = .ERROR ∧ (tokenSwitch reader c text).2 = reader ∧
        (isTokenChar c → isWhite c)) ∨
      SwitchSpec reader.range.ptr (c :: text) (tokenSwitch reader c text) := by
  have hnext : (readerAdvance reader 1).1.range.text = text := by
    rw [readerAdvance_one hreader]
  fun_cases tokenSwitch reader c text
  iterate 8
    · subst c
      right
      exact switchSpec_single hreader (by decide) reader.pos (by simp)
  · -- `=`
    rename_i isEq _ _ _ _ _ hread
    subst c
    right
    by_cases heq : text.head? = some (byte '=')
    · obtain ⟨rfl, hpair⟩ := Prod.mk.inj (hread.symm.trans (readerIsEq_of_head hnext heq))
      obtain ⟨rfl, rfl⟩ := Prod.mk.inj hpair
      exact switchSpec_pair hreader (by decide) heq reader.pos (by simp)
    · obtain ⟨rfl, hpair⟩ := Prod.mk.inj (hread.symm.trans (readerIsEq_of_not_head hnext heq))
      obtain ⟨rfl, rfl⟩ := Prod.mk.inj hpair
      exact switchSpec_single hreader (by decide) reader.pos (by simp)
  · -- `>`: the reader steps over it, and over the `=` in the case of `<`
    rename_i hread _
    subst c
    right
    have hhead : (byte '>' :: text).head? ≠ some (byte '=') := by
      rw [List.head?_cons]
      decide
    obtain ⟨rfl, hpair⟩ := Prod.mk.inj (hread.symm.trans (readerIsEq_of_not_head hreader hhead))
    obtain ⟨rfl, rfl⟩ := Prod.mk.inj hpair
    by_cases heq : text.head? = some (byte '=')
    · rw [lessThanCase_of_head hnext heq]
      exact switchSpec_pair hreader (by decide) heq _ (by simp)
    · rw [lessThanCase_of_not_head hnext heq]
      exact switchSpec_single hreader (by decide) _ (by simp)
  · exact absurd ‹c = byte '<'› hless
  · subst c
    right
    exact switchSpec_single hreader (by decide) reader.pos (by simp)
  · rename_i hletter _ _ hread
    right
    unfold readId at hread
    dsimp only at hread
    rw [hreader, take_readWhile] at hread
    cases hread
    exact switchSpec_run hreader (by simp [isWordChar, hletter]) (fun d hd => hd) reader.pos
      (wordType_spec _)
  · rename_i hdigit _ _ hread
    right
    unfold readNum at hread
    dsimp only at hread
    rw [hreader, take_readWhile] at hread
    cases hread
    exact switchSpec_run hreader hdigit (fun d hd => by simp [isWordChar, hd]) reader.pos (by simp)
  · rename_i h₁ h₂ h₃ h₄ h₅ h₆ h₇ h₈ hassign hgreater _ hsemi hletter hdigit
    refine .inl ⟨rfl, rfl, fun hchar => ?_⟩
    unfold isTokenChar isWordChar at hchar
    rw [Bool.or_eq_true, Bool.or_eq_true, Bool.or_eq_true] at hchar
    rcases hchar with (hwhite | hletter' | hdigit') | hsymbol
    · exact hwhite
    · exact absurd hletter' hletter
    · exact absurd hdigit' hdigit
    · obtain ⟨s, hs, hsc⟩ := List.any_eq_true.mp hsymbol
      have hheads : ∀ s ∈ symbols, s.1.head? ∈
          ([byte '\x7b', byte '\x7d', byte '(', byte ')', byte '+', byte '-', byte '*', byte '/',
            byte '=', byte '>', byte '<', byte ';'].map some) := by decide
      have hmem := hheads s hs
      rw [of_decide_eq_true hsc] at hmem
      simp only [List.map_cons, List.map_nil, List.mem_cons, Option.some.injEq, List.not_mem_nil,
        h₁, h₂, h₃, h₄, h₅, h₆, h₇, h₈, hassign, hgreater, hless, hsemi, or_self] at hmem

/-- A `<` is returned without stepping over it. -/
theorem tokenSwitch_less (hreader : reader.range.text = byte '<' :: text) :
    tokenSwitch reader (byte '<') text =
      (⟨.LESS_THAN, reader.pos, reader.range.ptr, [byte '<']⟩, reader) := by
  have hhead : (byte '<' :: text).head? ≠ some (byte '=') := by
    rw [List.head?_cons]
    decide
  exact lessThanCase_of_not_head hreader hhead

end Switch

/-- What `token_next` does at the text `white ++ rest`, the spaces and what follows. -/
inductive NextSpec (reader : Reader) : TextToken × Reader → Prop
  | eof {token reader' white} : reader.range.text = white → (∀ c ∈ white, isWhite c) →
      token.type = .EEOF → reader'.range = ⟨reader.range.ptr + white.length, []⟩ →
      NextSpec reader (token, reader')
  | error {token reader' white c text} : reader.range.text = white ++ c :: text →
      (∀ c ∈ white, isWhite c) → isTokenChar c = false → token.type = .ERROR →
      reader'.range = ⟨reader.range.ptr + white.length, c :: text⟩ → NextSpec reader (token, reader')
  | less {token reader' white text} : reader.range.text = white ++ byte '<' :: text →
      (∀ c ∈ white, isWhite c) → token.type = .LESS_THAN →
      token.range = ⟨reader.range.ptr + white.length, [byte '<']⟩ →
      reader'.range = ⟨reader.range.ptr + white.length, byte '<' :: text⟩ →
      NextSpec reader (token, reader')
  | token {token reader' white c text} : reader.range.text = white ++ c :: text →
      (∀ c ∈ white, isWhite c) → isWhite c = false → c ≠ byte '<' →
      SwitchSpec (reader.range.ptr + white.length) (c :: text) (token, reader') →
      NextSpec reader (token, reader')

/-- **One call.** -/
theorem tokenNext_spec (reader : Reader) : NextSpec reader (tokenNext reader) := by
  have hskip : (readerSkipWhite reader).range =
      ⟨reader.range.ptr + (reader.range.text.takeWhile isWhite).length,
        reader.range.text.dropWhile isWhite⟩ := readWhile_range isWhite rfl
  have hwhite : ∀ c ∈ reader.range.text.takeWhile isWhite, isWhite c :=
    fun c hc => List.mem_takeWhile_imp hc
  have hsplit := List.takeWhile_append_dropWhile (p := isWhite) (l := reader.range.text)
  unfold tokenNext
  dsimp only
  cases htext : reader.range.text.dropWhile isWhite with
  | nil =>
      rw [htext] at hskip hsplit
      rw [hskip]
      rw [List.append_nil] at hsplit
      exact .eof hsplit.symm hwhite rfl hskip
  | cons c text =>
      rw [htext] at hskip hsplit
      rw [hskip]
      have hreader : (readerSkipWhite reader).range.text = c :: text := by rw [hskip]
      have hptr : (readerSkipWhite reader).range.ptr =
          reader.range.ptr + (reader.range.text.takeWhile isWhite).length := by rw [hskip]
      by_cases hless : c = byte '<'
      · subst hless
        dsimp only
        rw [tokenSwitch_less hreader]
        exact .less hsplit.symm hwhite rfl (by rw [hptr]) hskip
      · have hnot : isWhite c = false := by
          have hhead := List.head?_dropWhile_not isWhite reader.range.text
          rw [htext] at hhead
          simpa using hhead
        have hswitch := tokenSwitch_spec hreader hless
        show NextSpec reader (tokenSwitch (readerSkipWhite reader) c text)
        generalize tokenSwitch (readerSkipWhite reader) c text = result at hswitch
        rcases hswitch with ⟨htype, hsame, hchar⟩ | hspec
        · refine .error hsplit.symm hwhite ?_ htype (by rw [hsame]; exact hskip)
          rw [← Bool.not_eq_true]
          intro h
          rw [hchar h] at hnot
          cases hnot
        · rw [hptr] at hspec
          exact .token hsplit.symm hwhite hnot hless hspec

/-- **A call leaves the reader at the end of the token** unless the token is `<`. -/
theorem atTokenEnd_iff (reader : Reader) :
    AtTokenEnd reader ↔ (reader.range.text.dropWhile isWhite).head? ≠ some (byte '<') := by
  have hdrop : ∀ {white rest : Range} {c : UInt8}, reader.range.text = white ++ c :: rest →
      (∀ c ∈ white, isWhite c) → isWhite c = false →
      (reader.range.text.dropWhile isWhite).head? = some c := by
    intro white rest c htext hwhite hc
    rw [htext, List.dropWhile_append_of_pos hwhite, List.dropWhile_cons_of_neg (by simp [hc])]
    rfl
  unfold AtTokenEnd
  have hspec := tokenNext_spec reader
  generalize tokenNext reader = result at hspec
  cases hspec with
  | eof htext hwhite htype hreader =>
      refine iff_of_true (fun h => absurd htype h) ?_
      rw [htext, List.dropWhile_eq_nil_iff.mpr hwhite]
      simp
  | @error token reader' white c text htext hwhite hchar htype hreader =>
      refine iff_of_true (fun _ h => absurd htype h) ?_
      rw [hdrop htext hwhite (by simp_all [isTokenChar])]
      intro h
      rw [Option.some.inj h] at hchar
      exact absurd hchar (by decide)
  | less htext hwhite htype hrange hreader =>
      refine iff_of_false ?_ (not_not.mpr (hdrop htext hwhite (by decide)))
      intro h
      have hend := h (by simp [htype]) (by simp [htype])
      rw [hrange, hreader] at hend
      simp at hend
  | token htext hwhite hnot hless hspec =>
      obtain ⟨rest, -, hreader⟩ := hspec.split
      refine iff_of_true (fun _ _ => ?_) ?_
      · rw [hreader, hspec.ptr]
      · rw [hdrop htext hwhite hnot]
        exact fun h => hless (Option.some.inj h)

/-! ## The loop -/

/-- A `<` comes before the end and before any character that starts no token. -/
def LessAhead (text : Range) : Prop := byte '<' ∈ text.takeWhile isTokenChar

instance (text : Range) : Decidable (LessAhead text) := inferInstanceAs (Decidable (_ ∈ _))

theorem lessAhead_append {chars rest : Range} (h : ∀ c ∈ chars, isTokenChar c ∧ c ≠ byte '<') :
    LessAhead (chars ++ rest) ↔ LessAhead rest := by
  unfold LessAhead
  rw [List.takeWhile_append_of_pos fun c hc => (h c hc).1, List.mem_append]
  constructor
  · rintro (hmem | hmem)
    · exact absurd rfl (h _ hmem).2
    · exact hmem
  · exact .inr

theorem white_spec {white : Range} (h : ∀ c ∈ white, isWhite c) :
    ∀ c ∈ white, isTokenChar c ∧ c ≠ byte '<' := by
  intro c hc
  have hwhite := h c hc
  refine ⟨by simp [isTokenChar, hwhite], ?_⟩
  rintro rfl
  exact absurd hwhite (by decide)

/-- Whether a `<` is ahead does not change with a call. -/
theorem lessAhead_next (reader : Reader) :
    LessAhead (tokenNext reader).2.range.text ↔ LessAhead reader.range.text := by
  have hspec := tokenNext_spec reader
  generalize tokenNext reader = result at hspec
  cases hspec with
  | eof htext hwhite htype hreader =>
      rw [hreader, htext, ← lessAhead_append (white_spec hwhite), List.append_nil]
  | error htext hwhite hchar htype hreader =>
      rw [hreader, htext, lessAhead_append (white_spec hwhite)]
  | less htext hwhite htype hrange hreader =>
      rw [hreader, htext, lessAhead_append (white_spec hwhite)]
  | token htext hwhite hnot hless hspec =>
      obtain ⟨rest, hrest, hreader⟩ := hspec.split
      rw [hreader, htext, lessAhead_append (white_spec hwhite), hrest,
        lessAhead_append hspec.chars]

/-- If the next token is `<`, it is ahead. -/
theorem lessAhead_of_head {text : Range}
    (h : (text.dropWhile isWhite).head? = some (byte '<')) : LessAhead text := by
  obtain ⟨rest, hrest⟩ := List.head?_eq_some_iff.mp h
  rw [← List.takeWhile_append_dropWhile (p := isWhite) (l := text), hrest,
    lessAhead_append (white_spec fun c hc => List.mem_takeWhile_imp hc)]
  exact List.mem_cons_self

/-- **The loop ends and its tokens tile the text** if no `<` is ahead. -/
theorem tokenDumpLoop_tiles (n : ℕ) (reader : Reader) (hn : reader.range.text.length < n)
    (hless : ¬ LessAhead reader.range.text) :
    ∃ tokens reader', tokenDumpLoop n reader = some (tokens, reader') ∧
      Tiles reader.range.ptr reader.range.text tokens reader' := by
  induction n generalizing reader with
  | zero => exact absurd hn (Nat.not_lt_zero _)
  | succ n ih =>
      have hnext := lessAhead_next reader
      have hspec := tokenNext_spec reader
      unfold tokenDumpLoop
      generalize tokenNext reader = result at hspec hnext
      dsimp only
      cases hspec with
      | @eof token reader' white htext hwhite htype hreader =>
          refine ⟨[token], reader', by simp [htype], ?_⟩
          rw [htext]
          exact List.append_nil white ▸ .last hwhite (.inl htype) hreader
      | @error token reader' white c text htext hwhite hchar htype hreader =>
          refine ⟨[token], reader', by simp [htype], ?_⟩
          rw [htext]
          exact .last hwhite (.inr htype) hreader
      | less htext hwhite htype hrange hreader =>
          refine absurd ?_ hless
          rw [htext, lessAhead_append (white_spec hwhite)]
          exact List.mem_cons_self
      | @token token reader' white c text htext hwhite hnot hchar hspec =>
          obtain ⟨rest, hrest, hreader⟩ := hspec.split
          have hlength : reader'.range.text.length < n := by
            have hpos := List.length_pos_iff.mpr hspec.ne_nil
            rw [htext, hrest, List.length_append, List.length_append] at hn
            rw [hreader]
            dsimp only at hpos hn ⊢
            omega
          obtain ⟨tokens, final, hloop, htiles⟩ := ih reader' hlength (mt hnext.mp hless)
          refine ⟨token :: tokens, final, ?_, ?_⟩
          · rw [if_pos ⟨hspec.type.2, hspec.type.1⟩, hloop]
            rfl
          · rw [hreader] at htiles
            rw [htext, hrest, ← List.append_assoc]
            exact .cons hwhite hspec.type.1 hspec.type.2 hspec.ptr htiles

/-- **The loop does not end** if a `<` is ahead. -/
theorem tokenDumpLoop_of_lessAhead (fuel : ℕ) (reader : Reader)
    (hless : LessAhead reader.range.text) : tokenDumpLoop fuel reader = none := by
  induction fuel generalizing reader with
  | zero => rfl
  | succ fuel ih =>
      have hnext := (lessAhead_next reader).mpr hless
      have hspec := tokenNext_spec reader
      unfold tokenDumpLoop
      generalize tokenNext reader = result at hspec hnext
      dsimp only
      cases hspec with
      | eof htext hwhite htype hreader =>
          rw [hreader] at hnext
          exact absurd hnext List.not_mem_nil
      | error htext hwhite hchar htype hreader =>
          rw [hreader, LessAhead, List.takeWhile_cons_of_neg (by simp [hchar])] at hnext
          exact absurd hnext List.not_mem_nil
      | less htext hwhite htype hrange hreader =>
          rw [if_pos (by simp [htype]), ih _ hnext]
          rfl
      | token htext hwhite hnot hchar hspec =>
          rw [if_pos ⟨hspec.type.2, hspec.type.1⟩, ih _ hnext]
          rfl

/-- **Tokenizing makes progress exactly if no `<` comes before the first character that
starts no token.** -/
theorem tokenDumpAll_progress_iff (text : Range) : Progress text ↔ ¬ LessAhead text := by
  constructor
  · rintro ⟨-, fuel, tokens, reader, hloop, -⟩ hless
    rw [tokenDumpAll, tokenDumpLoop_of_lessAhead fuel (readerOf text) hless] at hloop
    cases hloop
  · intro hless
    constructor
    · intro calls
      have hrun : ¬ LessAhead
          ((fun reader => (tokenNext reader).2)^[calls] (readerOf text)).range.text := by
        induction calls with
        | zero => exact hless
        | succ calls ih =>
            rw [Function.iterate_succ_apply', lessAhead_next]
            exact ih
      generalize (fun reader => (tokenNext reader).2)^[calls] (readerOf text) = reader at hrun
      apply (atTokenEnd_iff reader).mpr
      exact fun hhead => hrun (lessAhead_of_head hhead)
    · obtain ⟨tokens, reader, hloop, htiles⟩ := tokenDumpLoop_tiles (text.length + 1)
        (readerOf text) (Nat.lt_succ_self _) hless
      exact ⟨_, tokens, reader, hloop, htiles⟩

/-- **A comparison with `<`** is read over and over. -/
theorem tokenDumpAll_not_progress : ¬ ∀ text : Range, Progress text := by
  intro hall
  obtain ⟨-, fuel, tokens, reader, hloop, -⟩ := hall ("a < b".toList.map byte)
  rw [tokenDumpAll, tokenDumpLoop_of_lessAhead fuel _ (by decide)] at hloop
  cases hloop
