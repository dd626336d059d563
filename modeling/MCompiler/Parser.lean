/-
# The parser (`parser.c`): expressions

The parser reads tokens one at a time from a reader, with one token of lookahead.
The model is generic in the reader: `tokenNext` returns the next token and the reader
after it.

Each function returns a node, possibly the null pointer, and the parser after it, or
stops where the program does: at an access through a null or a wild pointer, or at a
failed assertion.  The recursion is bounded by `fuel`; `parserParseExpression_eq` says
how much is enough.  Where the source falls off the end of a function the model returns
the null pointer.
-/
import MCompiler.Ast

/-- Why the parser does not return. -/
inductive Stop where
  | nullDeref | wildDeref | assertFailed | outOfFuel
  deriving DecidableEq, Repr

/-- `parser_t`, without the allocator the nodes come from. -/
structure Parser (R : Type) where
  reader : R
  hasPeek : Bool := false
  peek : Token := ⟨.EEOF, []⟩
  error : Option String := none

/-! ## Tokens -/

section Tokens

variable {R : Type} (tokenNext : R → Token × R)

/-- `parser_peekToken`. -/
def parserPeekToken (p : Parser R) : Token × Parser R :=
  if p.hasPeek then (p.peek, p)
  else
    let (token, reader) := tokenNext p.reader
    (token, { p with reader := reader, peek := token, hasPeek := true })

/-- `parser_next`. -/
def parserNext (p : Parser R) : Token × Parser R :=
  if p.hasPeek then (p.peek, { p with peek := ⟨.ERROR, []⟩, hasPeek := false })
  else
    let (token, reader) := tokenNext p.reader
    (token, { p with reader := reader })

end Tokens

/-! ## Operators -/

/-- `getPresedence`. -/
def getPresedence : TokenType → ℤ
  | .GREATER | .GREATER_EQ | .LESS_THAN | .LESS_EQ | .EQUALS => 3
  | .PLUS | .MINUS => 4
  | .MUL | .DIV => 5
  | _ => -1

/-- The sign of a prefix `-`: `AST_AS_TYPE(node, number)->num *= -1`. -/
def negateNode : AstNode → Except Stop AstNode
  | .null => .error .nullDeref
  | .number num => .ok (.number (num * -1))
  | .variable varName wild => .ok (.variable varName !wild)
  | .binaryExp op left right wild => .ok (.binaryExp op left right !wild)
  -- no other node is an operand
  | _ => .error .wildDeref

/-- The end of `parser_parseBinary`: rotate `result` to the right if it binds tighter
than the operator of precedence `opPrec`. -/
def rotateResult (opPrec : ℤ) : AstNode → Except Stop AstNode
  | .binaryExp op left right false =>
      match left with
      | .null => .error .nullDeref
      | .binaryExp leftOp leftLeft z wild =>
          let rootPrec := getPresedence op
          if rootPrec > opPrec then
            .ok (.binaryExp leftOp leftLeft (.binaryExp op z right false) wild)
          else .ok (.binaryExp op left right false)
      | _ => .ok (.binaryExp op left right false)
  | _ => .error .wildDeref

/-! ## Expressions -/

section Expressions

variable {R : Type} (tokenNext : R → Token × R)

mutual

/-- `parser_readAtomInternal`. -/
def parserReadAtomInternal : ℕ → Parser R → Bool → Except Stop (AstNode × Parser R)
  | 0, _, _ => .error .outOfFuel
  | fuel + 1, p, hasPrefix =>
      let (tok, p) := parserNext tokenNext p
      if !hasPrefix && (tok.type = .MINUS || tok.type = .PLUS) then do
        let (node, p) ← parserReadAtomInternal fuel p true
        if tok.type ≠ .PLUS then
          let node ← negateNode node
          .ok (node, p)
        else .ok (node, p)
      else if tok.type = .PARAN_OPEN then do
        let (node, p) ← parserParseExpression fuel p
        let (tok, p) := parserNext tokenNext p
        if tok.type = .PARAN_CLOSE then .ok (node, p)
        else .ok (.null,
          { p with error := some "expected ')' a the end of paran expression" })
      else if tok.type = .NUMBER then
        match rangeParseInt tok.range with
        | none => .error .assertFailed
        | some num => .ok (.number (Int64.ofInt num), p)
      else if tok.type = .ID then .ok (.variable tok.range false, p)
      else .ok (.null, p)

/-- `parser_parseExpression`; `parser_readAtom` is `parser_readAtomInternal` without a
prefix. -/
def parserParseExpression : ℕ → Parser R → Except Stop (AstNode × Parser R)
  | 0, _ => .error .outOfFuel
  | fuel + 1, p => do
      let (node, p) ← parserReadAtomInternal fuel p false
      parserParseBinary fuel p node

/-- `parser_parseBinary`. -/
def parserParseBinary : ℕ → Parser R → AstNode → Except Stop (AstNode × Parser R)
  | 0, _, _ => .error .outOfFuel
  | fuel + 1, p, left =>
      let (op, p) := parserPeekToken tokenNext p
      let opPrec := getPresedence op.type
      if opPrec = -1 then .ok (left, p)
      else do
        let (_, p) := parserNext tokenNext p
        let (node, p) ← parserReadAtomInternal fuel p false
        if node.isNull then .ok (.null, p)
        else do
          let (result, p) ← parserParseBinary fuel p (.binaryExp op.type left node false)
          if result.isNull then .ok (.null, p)
          else do
            let result ← rotateResult opPrec result
            .ok (result, p)

end

end Expressions
