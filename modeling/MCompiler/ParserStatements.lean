/-
# The parser (`parser.c`): statements, blocks and functions

The functions take the state of the parser and return a node, possibly the null pointer,
and the state after it, as in `MCompiler.Parser`.  The statements of a block are collected
in a list, where the source has a buffer of pointers; the copy of the buffer is an
allocation from the zone, which has a largest size.
-/
import MCompiler.Parser
import MCompiler.Tokenizer

/-! ## The zone -/

/-- `MAX_ZONE_ALLOCATION`: a page without the header. -/
def maxZoneAllocation : ℕ := 4096 - 8

/-- The assertion of `zone_alloc`. -/
def zoneAlloc (size : ℕ) : Except Stop Unit :=
  if size ≤ maxZoneAllocation then .ok () else .error .assertFailed

section Parsing

variable {R : Type} (tokenNext : R → Token × R)

/-! ## Checks -/

/-- The result of `parser_check` where the check fails. -/
def Parser.fail (p : Parser R) (error : String) : Except Stop (AstNode × Parser R) :=
  .ok (.null, { p with error := some error })

/-- `parser_expect`, and what follows it. -/
def parserExpect (p : Parser R) (type : TokenType) (error : String)
    (next : Parser R → Except Stop (AstNode × Parser R)) : Except Stop (AstNode × Parser R) :=
  let (tok, p) := parserNext tokenNext p
  if tok.type = type then next p else p.fail error

/-- `_isDataType`. -/
def isDataType (type : TokenType) : Bool := type = .KW_VOID || type = .KW_INT64

/-! ## Simple statements -/

/-- `parser_parseAssignment`, which takes the token before the expression for the `=`. -/
def parserParseAssignment (fuel : ℕ) (p : Parser R) (varName : Range) :
    Except Stop (AstNode × Parser R) := do
  let (_, p) := parserNext tokenNext p
  let (assigned, p) ← parserParseExpression tokenNext fuel p
  if assigned.isNull then .ok (.null, p)
  else .ok (.binaryExp .ASSIGN (.variable varName false) assigned false, p)

/-- `parser_parseDeclaration`.  The check of the name assigns `TK_ID` to the token's
type, so that it succeeds for any token. -/
def parserParseDeclaration (fuel : ℕ) (p : Parser R) : Except Stop (AstNode × Parser R) :=
  let (dataType, p) := parserNext tokenNext p
  if isDataType dataType.type then do
    let (id, p) := parserNext tokenNext p
    let (assignment, p) ← parserParseAssignment tokenNext fuel p id.range
    if assignment.isNull then .ok (.null, p)
    else
      parserExpect tokenNext p .SEMI_COLON "expected semicolon after statement" fun p =>
        .ok (.declaration dataType.type assignment, p)
  else .error .assertFailed

/-- `parser_parseAssignmentOrCall`.  A call is an error, and the assignment may be the
null pointer. -/
def parserParseAssignmentOrCall (fuel : ℕ) (p : Parser R) : Except Stop (AstNode × Parser R) :=
  let (tok, p) := parserNext tokenNext p
  if tok.type = .ID then
    let (op, p) := parserPeekToken tokenNext p
    if op.type = .ASSIGN then do
      let (result, p) ← parserParseAssignment tokenNext fuel p tok.range
      parserExpect tokenNext p .SEMI_COLON "expected semicolon after statement" fun p =>
        .ok (result, p)
    else p.fail "unrecognized token while parsing assignment or call"
  else p.fail "Expected identifier"

/-- `parser_parseReturn`. -/
def parserParseReturn (p : Parser R) : Except Stop (AstNode × Parser R) :=
  let (_, p) := parserNext tokenNext p
  parserExpect tokenNext p .SEMI_COLON "expected semicolon after statement" fun p =>
    .ok (.return, p)

/-! ## Blocks -/

/-- The head of an `if` or a `while`, up to the block. -/
def parserParseCondition (fuel : ℕ) (p : Parser R)
    (next : AstNode → Parser R → Except Stop (AstNode × Parser R)) :
    Except Stop (AstNode × Parser R) :=
  let (_, p) := parserNext tokenNext p
  parserExpect tokenNext p .PARAN_OPEN "Expected parenthesis, while trying to parse function"
    fun p => do
      let (condition, p) ← parserParseExpression tokenNext fuel p
      if condition.isNull then .ok (.null, p)
      else
        parserExpect tokenNext p .PARAN_CLOSE
          "Expected parenthesis close, while trying to parse function" (next condition)

mutual

/-- `parser_parseStatement`. -/
def parserParseStatement : ℕ → Parser R → Except Stop (AstNode × Parser R)
  | 0, _ => .error .outOfFuel
  | fuel + 1, p =>
      let (op, p) := parserPeekToken tokenNext p
      if isDataType op.type then parserParseDeclaration tokenNext fuel p
      else
        match op.type with
        | .KW_IF => parserParseIf fuel p
        | .KW_WHILE => parserParseWhile fuel p
        | .KW_RETURN => parserParseReturn tokenNext p
        | .ID => parserParseAssignmentOrCall tokenNext fuel p
        | _ => p.fail "Unrecognized token while trying to parse statement"

/-- `parser_parseIf`. -/
def parserParseIf : ℕ → Parser R → Except Stop (AstNode × Parser R)
  | 0, _ => .error .outOfFuel
  | fuel + 1, p =>
      parserParseCondition tokenNext fuel p fun condition p => do
        let (block, p) ← parserParseBlock fuel p
        if block.isNull then .ok (.null, p) else .ok (.if condition block, p)

/-- `parser_parseWhile`. -/
def parserParseWhile : ℕ → Parser R → Except Stop (AstNode × Parser R)
  | 0, _ => .error .outOfFuel
  | fuel + 1, p =>
      parserParseCondition tokenNext fuel p fun condition p => do
        let (block, p) ← parserParseBlock fuel p
        if block.isNull then .ok (.null, p) else .ok (.while condition block, p)

/-- The loop of `parser_parseBlock`, with the statements so far; `none` where the block is
given up. -/
def parserBlockLoop : ℕ → Parser R → List AstNode →
    Except Stop (Option (List AstNode) × Parser R)
  | 0, _, _ => .error .outOfFuel
  | fuel + 1, p, statements =>
      let (tok, p) := parserPeekToken tokenNext p
      if tok.type = .EEOF then
        .ok (none, { p with
          error := some "premature ending of file, was expecting '\x7d' to terminate block" })
      else if tok.type = .CURLY_CLOSE then .ok (some statements, p)
      else do
        let (node, p) ← parserParseStatement fuel p
        if node.isNull then .ok (none, p)
        else parserBlockLoop fuel p (statements ++ [node])

/-- `parser_parseBlock`. -/
def parserParseBlock : ℕ → Parser R → Except Stop (AstNode × Parser R)
  | 0, _ => .error .outOfFuel
  | fuel + 1, p =>
      let (op, p) := parserPeekToken tokenNext p
      if op.type = .CURLY_OPEN then do
        let (_, p) := parserNext tokenNext p
        let (statements, p) ← parserBlockLoop fuel p []
        match statements with
        | none => .ok (.null, p)
        | some statements =>
            let (_, p) := parserNext tokenNext p
            zoneAlloc (8 * statements.length)
            .ok (.block statements, p)
      else do
        let (node, p) ← parserParseStatement fuel p
        if node.isNull then .ok (.null, p)
        else
          zoneAlloc 8
          .ok (.block [node], p)

end

/-! ## Functions -/

/-- `parser_parseFunction`. -/
def parserParseFunction (fuel : ℕ) (p : Parser R) : Except Stop (AstNode × Parser R) :=
  let (dataType, p) := parserNext tokenNext p
  if isDataType dataType.type then
    let (name, p) := parserNext tokenNext p
    if name.type = .ID then
      parserExpect tokenNext p .PARAN_OPEN "expteced a '(' for function argument list" fun p =>
        parserExpect tokenNext p .PARAN_CLOSE
          "expteced ')' to terminate a function argument list." fun p => do
            let (block, p) ← parserParseBlock tokenNext fuel p
            if block.isNull then .ok (.null, p)
            else .ok (.function name.range dataType.type 0 [block], p)
    else p.fail "exptected a function name"
  else p.fail "expected datatype when parsing a function"

/-- `parser_init`. -/
def parserInit (reader : R) : Parser R := { reader := reader }

end Parsing

/-- `token_next`, with the part of the token that the parser uses. -/
def readToken (reader : Reader) : Token × Reader :=
  let (token, reader) := tokenNext reader
  (⟨token.type, token.range.text⟩, reader)
