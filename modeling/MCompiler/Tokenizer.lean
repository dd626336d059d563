/-
# The tokenizer (`parser.c`)

`token_next` reads one token from a reader, which holds what is left of the text and the
position in it.  The switch of the source falls through from the case of `>` into the one
of `<`, and neither steps over its character before it looks for a `=`.
-/
import MCompiler.Ast

/-- `position_t`. -/
structure Position where
  line : ℕ := 0
  col : ℕ := 0
  offset : ℕ := 0
  deriving DecidableEq, Repr

/-- A `range_t` with its pointer: the address and the bytes from there on. -/
structure TextRange where
  ptr : ℕ := 0
  text : Range := []
  deriving DecidableEq, Repr

/-- `struct reader`. -/
structure Reader where
  pos : Position := {}
  range : TextRange
  deriving DecidableEq, Repr

/-- `struct token`. -/
structure TextToken where
  type : TokenType
  pos : Position := {}
  range : TextRange := {}
  deriving DecidableEq, Repr

/-- A character of the source. -/
def byte (c : Char) : UInt8 := UInt8.ofNat c.toNat

/-! ## The reader -/

/-- `position_ingest`. -/
def positionIngest (position : Position) (c : UInt8) : Position :=
  if c = byte '\n' then
    { position with offset := position.offset + 1, line := position.line + 1, col := 0 }
  else if c ≠ byte '\r' then
    { position with offset := position.offset + 1, col := position.col + 1 }
  else { position with offset := position.offset + 1 }

/-- `reader_advance`; the result is `true` at the end of the text. -/
def readerAdvance (reader : Reader) : ℕ → Reader × Bool
  | 0 => (reader, false)
  | i + 1 =>
      match reader.range.text with
      | [] => (reader, true)
      | c :: text =>
          readerAdvance ⟨positionIngest reader.pos c, reader.range.ptr + 1, text⟩ i

/-- The loops that step over characters of one kind, and their number. -/
def readWhile (kind : UInt8 → Bool) : Range → Reader → Reader × ℕ
  | [], reader => (reader, 0)
  | c :: text, reader =>
      if kind c then
        let (reader, size) := readWhile kind text (readerAdvance reader 1).1
        (reader, size + 1)
      else (reader, 0)

/-- `c >= '0' && c <= '9'`. -/
def isDigit (c : UInt8) : Bool := byte '0' ≤ c && c ≤ byte '9'

/-- `c >= 'a' && c <= 'z'` or `c >= 'A' && c <= 'Z'`; bytes from 128 on are negative. -/
def isLetter (c : UInt8) : Bool :=
  byte 'a' ≤ c && c ≤ byte 'z' || byte 'A' ≤ c && c ≤ byte 'Z'

/-- The characters of a word. -/
def isWordChar (c : UInt8) : Bool := isLetter c || isDigit c

/-- The characters between tokens. -/
def isWhite (c : UInt8) : Bool :=
  c = byte '\t' || c = byte '\n' || c = byte ' ' || c = byte '\r'

/-- `reader_skipWhite`. -/
def readerSkipWhite (reader : Reader) : Reader := (readWhile isWhite reader.range.text reader).1

/-- `_reader_isEq`, which also sets the size of the token. -/
def readerIsEq (reader : Reader) (token : TextToken) (start : Range) :
    Bool × Reader × TextToken :=
  match reader.range.text with
  | [] => (false, reader, token)
  | c :: _ =>
      if c = byte '=' then
        (true, (readerAdvance reader 1).1,
          { token with range := { token.range with text := start.take 2 } })
      else (false, reader, token)

/-! ## Words and numbers -/

/-- The keywords of `read_id`. -/
def keywords : List (Range × TokenType) :=
  [("while".toList.map byte, .KW_WHILE), ("if".toList.map byte, .KW_IF),
    ("else".toList.map byte, .KW_ELSE), ("void".toList.map byte, .KW_VOID),
    ("int64".toList.map byte, .KW_INT64), ("return".toList.map byte, .KW_RETURN)]

/-- The type of a word: the first keyword that it equals. -/
def wordType (word : Range) : TokenType := (keywords.lookup word).getD .ID

/-- `read_id`. -/
def readId (reader : Reader) (token : TextToken) : Reader × TextToken :=
  let (reader', size) := readWhile isWordChar reader.range.text reader
  let word := reader.range.text.take size
  (reader', { token with range := { token.range with text := word }, type := wordType word })

/-- `read_num`. -/
def readNum (reader : Reader) (token : TextToken) : Reader × TextToken :=
  let (reader', size) := readWhile isDigit reader.range.text reader
  (reader', { token with
    type := .NUMBER, range := { token.range with text := reader.range.text.take size } })

/-! ## The next token -/

/-- The case of `<`, where the case of `>` goes on. -/
def lessThanCase (start : Range) (reader : Reader) (token : TextToken) : TextToken × Reader :=
  let token := { token with type := .LESS_THAN }
  let (isEq, reader, token) := readerIsEq reader token start
  (if isEq then { token with type := .LESS_EQ } else token, reader)

/-- The switch of `token_next`, at the character `c`. -/
def tokenSwitch (reader : Reader) (c : UInt8) (text : Range) : TextToken × Reader :=
  let start := c :: text
  let token : TextToken := ⟨.ERROR, reader.pos, reader.range.ptr, [c]⟩
  let single (type : TokenType) : TextToken × Reader :=
    ({ token with type := type }, (readerAdvance reader 1).1)
  if c = byte '\x7b' then single .CURLY_OPEN
  else if c = byte '\x7d' then single .CURLY_CLOSE
  else if c = byte '(' then single .PARAN_OPEN
  else if c = byte ')' then single .PARAN_CLOSE
  else if c = byte '+' then single .PLUS
  else if c = byte '-' then single .MINUS
  else if c = byte '*' then single .MUL
  else if c = byte '/' then single .DIV
  else if c = byte '=' then
    let token := { token with type := .ASSIGN }
    let (isEq, reader, token) := readerIsEq (readerAdvance reader 1).1 token start
    (if isEq then { token with type := .EQUALS } else token, reader)
  else if c = byte '>' then
    let token := { token with type := .GREATER }
    let (isEq, reader, token) := readerIsEq reader token start
    let token := if isEq then { token with type := .GREATER_EQ } else token
    -- no return: the case of `<` is next
    lessThanCase start (readerAdvance reader 1).1 token
  else if c = byte '<' then lessThanCase start reader token
  else if c = byte ';' then single .SEMI_COLON
  else if isLetter c then
    let (reader, token) := readId reader token
    (token, reader)
  else if isDigit c then
    let (reader, token) := readNum reader token
    (token, reader)
  else (token, reader)

/-- `token_next`. -/
def tokenNext (reader : Reader) : TextToken × Reader :=
  let reader := readerSkipWhite reader
  match reader.range.text with
  | [] => (⟨.EEOF, reader.pos, {}⟩, reader)
  | c :: text => tokenSwitch reader c text
