/-
# Scanning format strings (`format.c`)

`format_nextToken` cuts a format string into literal text and groups in braces.  The range
that it moves is a position in the memory and a size, the reads through the pointer are
checked, and so is the assertion of `range_skip`.

* `nextPart` : what one call does, on the text that is left.
* `formatDumpTokens_safe_iff` : which strings are scanned to an end.  A group that is not
  closed fails the assertion, unless nothing follows its brace.
-/
import Mathlib.Data.List.TakeWhile
import MCompiler.Tokenizer

/-! ## Tokens -/

/-- `enum format_token_type`. -/
inductive FormatTokenType where
  | EEOF | ERROR | STRING | HEX_INT | HEX_UINT | INT | UINT | DBUFFER | RANGE | PRINTER | LIST
  | NULL_STR | CURLY_OPEN | CURLY_CLOSE
  deriving DecidableEq, Repr

/-- A range by its position in the memory. -/
structure FormatRange where
  ptr : ℕ
  size : ℕ
  deriving DecidableEq, Repr

/-- `struct format_token`. -/
structure FormatToken where
  type : FormatTokenType
  contents : FormatRange
  deriving DecidableEq, Repr

/-- Where the execution stops: at the assertion of `range_skip`, with a read beyond the
memory, or at an argument of another type than the directive reads. -/
inductive FormatStop where
  | skipAssert | readBeyond | wrongArgument
  deriving DecidableEq, Repr

/-- `NAME_TOKENS`: the names of the directives. -/
def nameTokens : List (List UInt8 × FormatTokenType) :=
  [("hex_int".toList.map byte, .HEX_INT), ("hex_uint".toList.map byte, .HEX_UINT),
    ("int".toList.map byte, .INT), ("uint".toList.map byte, .UINT),
    ("dbuffer".toList.map byte, .DBUFFER), ("range".toList.map byte, .RANGE),
    ("printer".toList.map byte, .PRINTER), ("list".toList.map byte, .LIST),
    ("str".toList.map byte, .NULL_STR), ("co".toList.map byte, .CURLY_OPEN),
    ("cc".toList.map byte, .CURLY_CLOSE)]

/-- `format_getTokenType`: the first name that the range equals. -/
def formatGetTokenType (range : List UInt8) : FormatTokenType :=
  (nameTokens.lookup range).getD .ERROR

/-! ## The scanner -/

section Scanner

variable (memory : List UInt8)

/-- `*ptr`. -/
def readByte (ptr : ℕ) : Except FormatStop UInt8 :=
  match memory[ptr]? with
  | some c => .ok c
  | none => .error .readBeyond

/-- The bytes of a range. -/
def rangeBytes (range : FormatRange) : List UInt8 :=
  (memory.drop range.ptr).take range.size

/-- `range_skip`. -/
def rangeSkip (range : FormatRange) (amount : ℕ) : Except FormatStop FormatRange :=
  if amount ≤ range.size then .ok ⟨range.ptr + amount, range.size - amount⟩
  else .error .skipAssert

/-- Both loops of `format_nextToken`: up to the byte `stop`, and how many bytes these are.
The byte is read before the size is tested. -/
def scanUntil (stop : UInt8) : ℕ → ℕ → Except FormatStop (FormatRange × ℕ)
  | 0, ptr => do
      let _ ← readByte memory ptr
      return (⟨ptr, 0⟩, 0)
  | size + 1, ptr => do
      let c ← readByte memory ptr
      if c = stop then return (⟨ptr, size + 1⟩, 0)
      -- `range_skip` by one, with a byte left
      let (range, count) ← scanUntil stop size (ptr + 1)
      return (range, count + 1)

/-- `format_nextToken`: the token, and the range after it. -/
def formatNextToken (range : FormatRange) : Except FormatStop (FormatToken × FormatRange) := do
  if range.size = 0 then return (⟨.EEOF, ⟨range.ptr, 0⟩⟩, range)
  let start := range.ptr
  let (range, size) ← scanUntil memory (byte '{') range.size range.ptr
  if size ≠ 0 then return (⟨.STRING, ⟨start, size⟩⟩, range)
  let start := start + 1
  let range ← rangeSkip range 1
  let (range, size) ← scanUntil memory (byte '}') range.size range.ptr
  if size = 0 then return (⟨.ERROR, ⟨start, 0⟩⟩, range)
  let type := formatGetTokenType (rangeBytes memory ⟨start, size⟩)
  let range ← rangeSkip range 1
  return (⟨type, ⟨start, size⟩⟩, range)

/-- The variables of the loops over the tokens when they end. -/
structure FormatEnd (σ : Type) where
  state : σ
  token : FormatToken
  range : FormatRange

/-- The loop of `format_dumpTokens` and of `format_listDbuffer`: the next token, and what is
done with it, until an error or the end. -/
def formatTokenLoop {σ : Type} (emit : σ → FormatToken → Except FormatStop σ) :
    ℕ → FormatRange → σ → Option (Except FormatStop (FormatEnd σ))
  | 0, _, _ => none
  | fuel + 1, range, s =>
      match formatNextToken memory range with
      | .error stop => some (.error stop)
      | .ok (token, range) =>
          match emit s token with
          | .error stop => some (.error stop)
          | .ok s =>
              if token.type ≠ .ERROR ∧ token.type ≠ .EEOF then
                formatTokenLoop emit fuel range s
              else some (.ok ⟨s, token, range⟩)

end Scanner

/-- The memory of a string: its bytes and the terminating NUL. -/
def stringMemory (string : List UInt8) : List UInt8 :=
  string ++ [0]

/-- `range_fromString`. -/
def formatRangeFromString (string : List UInt8) : FormatRange :=
  ⟨0, string.length⟩

/-- `format_dumpTokens`: the tokens printed. -/
def formatDumpTokens (fuel : ℕ) (format : List UInt8) :
    Option (Except FormatStop (FormatEnd (List FormatToken))) :=
  formatTokenLoop (stringMemory format) (fun tokens token => .ok (tokens ++ [token])) fuel
    (formatRangeFromString format) []

/-! ## One token -/

/-- The range is what is left of a string: the bytes `text`, and the NUL behind them. -/
structure TextLeft (memory : List UInt8) (range : FormatRange) (text : List UInt8) : Prop where
  memory : memory.drop range.ptr = text ++ [0]
  size : range.size = text.length

theorem textLeft_string (string : List UInt8) :
    TextLeft (stringMemory string) (formatRangeFromString string) string :=
  ⟨rfl, rfl⟩

section Scanner

variable {memory : List UInt8} {range : FormatRange} {text : List UInt8}

theorem TextLeft.skip (front : List UInt8) {rest : List UInt8}
    (h : TextLeft memory range (front ++ rest)) :
    TextLeft memory ⟨range.ptr + front.length, range.size - front.length⟩ rest := by
  constructor
  · rw [← List.drop_drop, h.memory, List.append_assoc, List.drop_left]
  · simp [h.size]

theorem TextLeft.bytes {front rest : List UInt8} (h : TextLeft memory range (front ++ rest)) :
    rangeBytes memory ⟨range.ptr, front.length⟩ = front := by
  rw [rangeBytes, h.memory, List.append_assoc, List.take_left]

theorem readByte_eq {ptr : ℕ} {c : UInt8} {rest : List UInt8}
    (h : memory.drop ptr = c :: rest) : readByte memory ptr = .ok c := by
  have hget : memory[ptr]? = some c := by
    have := congrArg (·[0]?) h
    simpa using this
  rw [readByte, hget]

/-- The bytes before the first `stop`.  At the end the NUL is read, and no byte behind it. -/
theorem scanUntil_eq (stop : UInt8) :
    ∀ (text : List UInt8) (ptr : ℕ), memory.drop ptr = text ++ [0] →
      scanUntil memory stop text.length ptr
        = .ok (⟨ptr + (text.takeWhile (· ≠ stop)).length,
            text.length - (text.takeWhile (· ≠ stop)).length⟩,
          (text.takeWhile (· ≠ stop)).length)
  | [], ptr, h => by
      rw [List.length_nil, scanUntil, readByte_eq h]
      rfl
  | c :: text, ptr, h => by
      rw [List.length_cons, scanUntil, readByte_eq h]
      by_cases hc : c = stop
      · simp [hc, bind, Except.bind, pure, Except.pure]
      · have hrest : memory.drop (ptr + 1) = text ++ [0] := by
          rw [← List.drop_drop, h]
          rfl
        have ih := scanUntil_eq stop text (ptr + 1) hrest
        simp only [bind, Except.bind, if_neg hc, ih, pure, Except.pure]
        simp [hc]
        omega

/-- What one call does to the text that is left: the type and the bytes of the token, and
what is left then.  A group that is not closed fails the assertion. -/
def nextPart : List UInt8 → Option (FormatTokenType × List UInt8 × List UInt8)
  | [] => some (.EEOF, [], [])
  | c :: text =>
      if c ≠ byte '{' then
        some (.STRING, (c :: text).takeWhile (· ≠ byte '{'), (c :: text).dropWhile (· ≠ byte '{'))
      else
        match text.takeWhile (· ≠ byte '}'), text.dropWhile (· ≠ byte '}') with
        | [], rest => some (.ERROR, [], rest)
        | _ :: _, [] => none
        | n :: name, _ :: rest => some (formatGetTokenType (n :: name), n :: name, rest)

/-- `format_nextToken` does what `nextPart` says. -/
theorem formatNextToken_eq (h : TextLeft memory range text) :
    match nextPart text with
    | none => formatNextToken memory range = .error .skipAssert
    | some (type, contents, rest) => ∃ token range',
        formatNextToken memory range = .ok (token, range') ∧ token.type = type ∧
          rangeBytes memory token.contents = contents ∧ TextLeft memory range' rest := by
  cases text with
  | nil =>
    have hsize : range.size = 0 := h.size
    refine ⟨⟨.EEOF, ⟨range.ptr, 0⟩⟩, range, ?_, rfl, ?_, h⟩
    · simp [formatNextToken, hsize, pure, Except.pure]
    · simp [rangeBytes]
  | cons c text =>
    have hsize : range.size ≠ 0 := by simp [h.size]
    have hscan := scanUntil_eq (byte '{') (c :: text) range.ptr h.memory
    rw [← h.size] at hscan
    by_cases hc : c ≠ byte '{'
    · -- literal text
      rw [nextPart, if_pos hc]
      have hsplit := List.takeWhile_append_dropWhile (p := (· ≠ byte '{')) (l := c :: text)
      rw [← hsplit] at h
      refine ⟨⟨.STRING, _⟩, _, ?_, rfl, h.bytes, TextLeft.skip _ h⟩
      simp only [formatNextToken, hsize, if_false, hscan, bind, Except.bind, pure, Except.pure]
      simp [hc]
    · -- a group: the brace is skipped, then its name is read
      rw [nextPart, if_neg hc]
      rw [not_not] at hc
      have hbrace : TextLeft memory ⟨range.ptr + 1, range.size - 1⟩ text :=
        TextLeft.skip [c] h
      have hname := scanUntil_eq (byte '}') text (range.ptr + 1) hbrace.memory
      have hnone : ((c :: text).takeWhile (· ≠ byte '{')).length = 0 := by simp [hc]
      rw [hnone, h.size, Nat.add_zero, Nat.sub_zero, List.length_cons] at hscan
      have hsplit := List.takeWhile_append_dropWhile (p := (· ≠ byte '}')) (l := text)
      generalize text.takeWhile (· ≠ byte '}') = name at hname hsplit
      generalize text.dropWhile (· ≠ byte '}') = rest at hsplit
      have hlength : text.length - name.length = rest.length := by simp [← hsplit]
      rw [hlength] at hname
      rw [← hsplit] at hbrace
      cases name with
      | nil =>
        refine ⟨⟨.ERROR, ⟨range.ptr + 1, 0⟩⟩, ⟨range.ptr + 1, rest.length⟩, ?_, rfl, ?_,
          hbrace.memory, rfl⟩
        · simp [formatNextToken, h.size, hscan, bind, Except.bind, pure, Except.pure, rangeSkip,
            hname]
        · simp [rangeBytes]
      | cons n name =>
        cases rest with
        | nil =>
          simp [formatNextToken, h.size, hscan, bind, Except.bind, rangeSkip, hname]
        | cons d rest =>
          have hclose : rangeBytes memory ⟨range.ptr + 1, name.length + 1⟩ = n :: name :=
            hbrace.bytes
          have hskip : TextLeft memory _ rest :=
            TextLeft.skip (n :: name ++ [d]) (by simpa using hbrace)
          refine ⟨⟨formatGetTokenType (n :: name), ⟨range.ptr + 1, name.length + 1⟩⟩,
            ⟨range.ptr + 1 + (name.length + 1) + 1, rest.length⟩, ?_, rfl, hclose, ?_, rfl⟩
          · simp [formatNextToken, h.size, hscan, bind, Except.bind, pure, Except.pure, rangeSkip,
              hname, hclose]
          · simpa [Nat.add_assoc] using hskip.memory

end Scanner

/-! ## All tokens -/

/-- Literal text and groups with the name of a directive, closed. -/
inductive WellGrouped : List UInt8 → Prop
  | nil : WellGrouped []
  | literal {c : UInt8} {text : List UInt8} (hc : c ≠ byte '{') (h : WellGrouped text) :
      WellGrouped (c :: text)
  | group {name text : List UInt8} (hname : formatGetTokenType name ≠ .ERROR)
      (h : WellGrouped text) : WellGrouped (byte '{' :: (name ++ byte '}' :: text))

/-- A brace behind literal text and directives only is the last character or is closed. -/
def GroupsClosed (text : List UInt8) : Prop :=
  ∀ front rest, text = front ++ byte '{' :: rest → WellGrouped front →
    rest = [] ∨ byte '}' ∈ rest

/-- A name has characters, and no brace is one of them. -/
theorem name_of_tokenType {name : List UInt8} (h : formatGetTokenType name ≠ .ERROR) :
    name ≠ [] ∧ byte '}' ∉ name := by
  have hnames : ∀ entry ∈ nameTokens, entry.1 ≠ [] ∧ byte '}' ∉ entry.1 := by decide
  rw [formatGetTokenType] at h
  cases hlookup : nameTokens.lookup name with
  | none => simp [hlookup] at h
  | some type =>
    obtain ⟨_, _, hmem, -⟩ := List.lookup_eq_some_iff.1 hlookup
    exact hnames (name, type) (by simp [hmem])

/-- The text before the first closing brace, with the brace. -/
theorem closing_split {name name' rest rest' : List UInt8} (hname : byte '}' ∉ name)
    (hname' : byte '}' ∉ name')
    (h : name ++ byte '}' :: rest = name' ++ byte '}' :: rest') : name = name' ∧ rest = rest' := by
  have htake : ∀ {l : List UInt8} (r : List UInt8), byte '}' ∉ l →
      (l ++ byte '}' :: r).takeWhile (· ≠ byte '}') = l := by
    intro l r hl
    rw [List.takeWhile_append_of_pos]
    · simp
    · intro c hc
      exact decide_eq_true fun heq => hl (heq ▸ hc)
  have heq : name = name' := by
    rw [← htake rest hname, h, htake rest' hname']
  subst heq
  simpa using h

theorem groupsClosed_nil : GroupsClosed [] := by
  intro front rest h
  simp at h

theorem groupsClosed_literal {c : UInt8} {text : List UInt8} (hc : c ≠ byte '{') :
    GroupsClosed (c :: text) ↔ GroupsClosed text := by
  constructor
  · rintro h front rest rfl hfront
    exact h (c :: front) rest rfl (.literal hc hfront)
  · intro h front rest heq hfront
    cases hfront with
    | nil =>
      rw [List.nil_append, List.cons.injEq] at heq
      exact absurd heq.1 hc
    | literal _ hfront =>
      rw [List.cons_append, List.cons.injEq] at heq
      exact h _ rest heq.2 hfront
    | group _ _ =>
      rw [List.cons_append, List.cons.injEq] at heq
      exact absurd heq.1 hc

/-- A group in front: it is closed or the last character, and if it has the name of a
directive, what follows it counts, too. -/
theorem groupsClosed_brace {text : List UInt8} :
    GroupsClosed (byte '{' :: text) ↔ (text = [] ∨ byte '}' ∈ text) ∧
      ∀ name rest, text = name ++ byte '}' :: rest → formatGetTokenType name ≠ .ERROR →
        GroupsClosed rest := by
  constructor
  · intro h
    refine ⟨h [] text rfl .nil, ?_⟩
    rintro name rest rfl hname front tail rfl hfront
    exact h (byte '{' :: (name ++ byte '}' :: front)) tail (by simp) (.group hname hfront)
  · rintro ⟨htext, hrest⟩ front tail heq hfront
    cases hfront with
    | nil =>
      rw [List.nil_append, List.cons.injEq] at heq
      exact heq.2 ▸ htext
    | literal hc _ =>
      rw [List.cons_append, List.cons.injEq] at heq
      exact absurd heq.1.symm hc
    | group hname hfront =>
      rename_i name front
      apply hrest name (front ++ byte '{' :: tail) ?_ hname front tail rfl hfront
      simpa using heq

theorem nextPart_literal {c : UInt8} {text : List UInt8} (hc : c ≠ byte '{') :
    nextPart (c :: text) = some (.STRING, (c :: text).takeWhile (· ≠ byte '{'),
      (c :: text).dropWhile (· ≠ byte '{')) := by
  rw [nextPart, if_pos hc]

/-- A closed group. -/
theorem nextPart_group {name rest : List UInt8} (hname : byte '}' ∉ name) (hne : name ≠ []) :
    nextPart (byte '{' :: (name ++ byte '}' :: rest))
      = some (formatGetTokenType name, name, rest) := by
  have hall : ∀ c ∈ name, decide (c ≠ byte '}') = true :=
    fun c hc => decide_eq_true fun heq => hname (heq ▸ hc)
  have htake : (name ++ byte '}' :: rest).takeWhile (· ≠ byte '}') = name := by
    rw [List.takeWhile_append_of_pos hall]
    simp
  have hdrop : (name ++ byte '}' :: rest).dropWhile (· ≠ byte '}') = byte '}' :: rest := by
    rw [List.dropWhile_append_of_pos hall]
    simp
  obtain ⟨n, name, rfl⟩ := List.exists_cons_of_ne_nil hne
  rw [nextPart, if_neg (by simp), htake, hdrop]

/-- An empty group, or a brace that nothing follows. -/
theorem nextPart_empty {text : List UInt8} (h : text = [] ∨ ∃ rest, text = byte '}' :: rest) :
    nextPart (byte '{' :: text) = some (.ERROR, [], text) := by
  rcases h with rfl | ⟨rest, rfl⟩
  · rfl
  · rw [nextPart, if_neg (by simp)]
    simp

/-- A group that is not closed. -/
theorem nextPart_open {text : List UInt8} (hne : text ≠ []) (h : byte '}' ∉ text) :
    nextPart (byte '{' :: text) = none := by
  have hall : ∀ c ∈ text, decide (c ≠ byte '}') = true :=
    fun c hc => decide_eq_true fun heq => h (heq ▸ hc)
  have htake : text.takeWhile (· ≠ byte '}') = text := by
    simpa using @List.takeWhile_append_of_pos _ _ text [] hall
  have hdrop : text.dropWhile (· ≠ byte '}') = [] := by
    simpa using @List.dropWhile_append_of_pos _ _ text [] hall
  obtain ⟨n, text, rfl⟩ := List.exists_cons_of_ne_nil hne
  rw [nextPart, if_neg (by simp), htake, hdrop]

theorem groupsClosed_dropWhile (text : List UInt8) :
    GroupsClosed (text.dropWhile (· ≠ byte '{')) ↔ GroupsClosed text := by
  induction text with
  | nil => rfl
  | cons c text ih =>
    by_cases hc : c = byte '{'
    · simp [hc]
    · rw [groupsClosed_literal hc, ← ih]
      simp [hc]

/-- How the text behind a brace goes on. -/
theorem brace_cases (text : List UInt8) :
    (text = [] ∨ ∃ rest, text = byte '}' :: rest) ∨ (text ≠ [] ∧ byte '}' ∉ text) ∨
      ∃ name rest, name ≠ [] ∧ byte '}' ∉ name ∧ text = name ++ byte '}' :: rest := by
  by_cases h : byte '}' ∈ text
  · obtain ⟨name, rest, rfl, hname⟩ := List.eq_append_cons_of_mem h
    by_cases hne : name = []
    · exact .inl (.inr ⟨rest, by simp [hne]⟩)
    · exact .inr (.inr ⟨name, rest, hne, hname, rfl⟩)
  · by_cases hne : text = []
    · exact .inl (.inl hne)
    · exact .inr (.inl ⟨hne, h⟩)

/-- An empty group is not a group with a name. -/
theorem empty_ne_group {text name rest : List UInt8}
    (h : text = [] ∨ ∃ rest, text = byte '}' :: rest) (hne : name ≠ []) (hname : byte '}' ∉ name) :
    text ≠ name ++ byte '}' :: rest := by
  obtain ⟨n, name, rfl⟩ := List.exists_cons_of_ne_nil hne
  rintro rfl
  rcases h with h | ⟨rest, h⟩
  · simp at h
  · rw [List.cons_append, List.cons.injEq] at h
    simp [h.1] at hname

section Loop

variable {memory : List UInt8} {σ : Type} {emit : σ → FormatToken → Except FormatStop σ}

/-- The loop ends with an error or at the end. -/
theorem formatTokenLoop_last {fuel : ℕ} {range : FormatRange} {s : σ} {result : FormatEnd σ}
    (h : formatTokenLoop memory emit fuel range s = some (.ok result)) :
    result.token.type = .ERROR ∨ result.token.type = .EEOF := by
  induction fuel generalizing range s with
  | zero => simp [formatTokenLoop] at h
  | succ fuel ih =>
    rw [formatTokenLoop] at h
    split at h
    · simp at h
    · split at h
      · simp at h
      · split at h
        · exact ih h
        · rename_i hlast
          cases h
          by_contra hcon
          rw [not_or] at hcon
          exact hlast hcon

/-- One round of the loop, on a token that does not end it. -/
theorem formatTokenLoop_next {fuel : ℕ} {range range' : FormatRange} {s s' : σ}
    {token : FormatToken} (htoken : formatNextToken memory range = .ok (token, range'))
    (hemit : emit s token = .ok s') (herror : token.type ≠ .ERROR) (hend : token.type ≠ .EEOF) :
    formatTokenLoop memory emit (fuel + 1) range s
      = formatTokenLoop memory emit fuel range' s' := by
  simp [formatTokenLoop, htoken, hemit, herror, hend]

/-- The round that ends the loop. -/
theorem formatTokenLoop_end {fuel : ℕ} {range range' : FormatRange} {s s' : σ}
    {token : FormatToken} (htoken : formatNextToken memory range = .ok (token, range'))
    (hemit : emit s token = .ok s') (hend : token.type = .ERROR ∨ token.type = .EEOF) :
    formatTokenLoop memory emit (fuel + 1) range s = some (.ok ⟨s', token, range'⟩) := by
  have hlast : ¬ (token.type ≠ .ERROR ∧ token.type ≠ .EEOF) := by tauto
  simp [formatTokenLoop, htoken, hemit, hlast]

end Loop

/-- No name is that of the end. -/
theorem tokenType_ne_eof (name : List UInt8) : formatGetTokenType name ≠ .EEOF := by
  have hnames : ∀ entry ∈ nameTokens, entry.2 ≠ .EEOF := by decide
  rw [formatGetTokenType]
  cases hlookup : nameTokens.lookup name with
  | none => simp
  | some type =>
    obtain ⟨_, _, hmem, -⟩ := List.lookup_eq_some_iff.1 hlookup
    exact hnames (name, type) (by simp [hmem])

/-- The loop of `format_dumpTokens` on what is left of a string: every token takes a byte at
least, so that it ends. -/
theorem dumpLoop_iff {memory : List UInt8} (fuel : ℕ) :
    ∀ (text : List UInt8) (range : FormatRange) (tokens : List FormatToken),
      text.length < fuel → TextLeft memory range text →
      ((∃ result, formatTokenLoop memory (fun tokens token => .ok (tokens ++ [token])) fuel
          range tokens = some (.ok result)) ↔ GroupsClosed text) := by
  induction fuel with
  | zero => intro text range tokens h; omega
  | succ fuel ih =>
    intro text range tokens hfuel hleft
    have hnext := formatNextToken_eq hleft
    cases text with
    | nil =>
      obtain ⟨token, range', htoken, htype, -⟩ := hnext
      simp only [groupsClosed_nil, iff_true]
      exact ⟨_, formatTokenLoop_end htoken rfl (.inr htype)⟩
    | cons c text =>
      by_cases hc : c = byte '{'
      · subst hc
        rw [groupsClosed_brace]
        rcases brace_cases text with hempty | ⟨hne, hopen⟩ | ⟨name, rest, hne, hname, rfl⟩
        · -- an empty group is an error, and the loop ends
          rw [nextPart_empty hempty] at hnext
          obtain ⟨token, range', htoken, htype, -⟩ := hnext
          constructor
          · rintro -
            constructor
            · rcases hempty with rfl | ⟨rest, rfl⟩ <;> simp
            · intro name rest htext hname
              obtain ⟨hne, hbrace⟩ := name_of_tokenType hname
              exact absurd htext (empty_ne_group hempty hne hbrace)
          · rintro -
            exact ⟨_, formatTokenLoop_end htoken rfl (.inl htype)⟩
        · -- a group that is not closed: the assertion fails
          rw [nextPart_open hne hopen] at hnext
          constructor
          · rintro ⟨result, hloop⟩
            rw [formatTokenLoop, hnext] at hloop
            simp at hloop
          · rintro ⟨hclosed, -⟩
            exact absurd hclosed (by simp [hne, hopen])
        · -- a closed group: the loop goes on if its name is that of a directive
          rw [nextPart_group hname hne] at hnext
          obtain ⟨token, range', htoken, htype, -, hleft'⟩ := hnext
          by_cases herror : formatGetTokenType name = .ERROR
          · constructor
            · rintro -
              refine ⟨by simp, fun name' rest' htext hname' => ?_⟩
              have heq := closing_split hname (name_of_tokenType hname').2 htext
              exact absurd (heq.1 ▸ herror) hname'
            · rintro -
              exact ⟨_, formatTokenLoop_end htoken rfl (.inl (htype.trans herror))⟩
          · rw [formatTokenLoop_next htoken rfl (htype ▸ herror)
              (htype ▸ tokenType_ne_eof name)]
            have hlength : rest.length < fuel := by
              simp at hfuel
              omega
            rw [ih rest _ _ hlength hleft']
            constructor
            · intro hrest
              refine ⟨by simp, fun name' rest' htext hname' => ?_⟩
              have heq := closing_split hname (name_of_tokenType hname').2 htext
              exact heq.2 ▸ hrest
            · rintro ⟨-, hrest⟩
              exact hrest name rest rfl herror
      · rw [nextPart_literal hc] at hnext
        obtain ⟨token, range', htoken, htype, -, hleft'⟩ := hnext
        rw [formatTokenLoop_next htoken rfl (by simp [htype]) (by simp [htype]),
          ← groupsClosed_dropWhile]
        apply ih _ _ _ ?_ hleft'
        -- the first character is dropped
        rw [List.dropWhile_cons_of_pos (by simpa using hc)]
        rw [List.length_cons] at hfuel
        exact Nat.lt_of_le_of_lt (List.length_dropWhile_le _ text) (by omega)

/-- `format_dumpTokens` reads no byte beyond the NUL, not even where its assertion fails. -/
theorem formatDumpTokens_reads (fuel : ℕ) (format : List UInt8) :
    formatDumpTokens fuel format ≠ some (.error .readBeyond) := by
  have hloop : ∀ fuel text range tokens, TextLeft (stringMemory format) range text →
      formatTokenLoop (stringMemory format) (fun tokens token => .ok (tokens ++ [token])) fuel
        range tokens ≠ some (.error .readBeyond) := by
    intro fuel
    induction fuel with
    | zero => simp [formatTokenLoop]
    | succ fuel ih =>
      intro text range tokens hleft
      have hnext := formatNextToken_eq hleft
      cases hpart : nextPart text with
      | none =>
        rw [hpart] at hnext
        simp [formatTokenLoop, hnext]
      | some part =>
        rw [hpart] at hnext
        obtain ⟨token, range', htoken, -, -, hleft'⟩ := hnext
        rw [formatTokenLoop, htoken]
        dsimp only
        split
        · exact ih _ _ _ hleft'
        · simp
  exact hloop fuel format _ _ (textLeft_string format)

/-- A format string is scanned to an error or to its end, in no more tokens than it has bytes
and one. -/
def ScansSafely (format : List UInt8) : Prop :=
  ∃ result, formatDumpTokens (format.length + 1) format = some (.ok result) ∧
    (result.token.type = .ERROR ∨ result.token.type = .EEOF)

/-- **Which format strings are scanned safely**: those in which every brace that is reached,
behind literal text and directives, is the last character or is closed later. -/
theorem formatDumpTokens_safe_iff (format : List UInt8) :
    ScansSafely format ↔ GroupsClosed format := by
  rw [← dumpLoop_iff (format.length + 1) format _ [] (by omega) (textLeft_string format)]
  constructor
  · rintro ⟨result, hloop, -⟩
    exact ⟨result, hloop⟩
  · rintro ⟨result, hloop⟩
    exact ⟨result, hloop, formatTokenLoop_last hloop⟩

/-- A directive without its closing brace. -/
theorem formatDumpTokens_not_safe : ¬ ScansSafely ("\x7bint".toList.map byte) := by
  rintro ⟨result, hloop, -⟩
  have hstop : formatDumpTokens 5 ("\x7bint".toList.map byte) = some (.error .skipAssert) := by
    rfl
  exact absurd (hstop.symm.trans hloop) (by simp)
