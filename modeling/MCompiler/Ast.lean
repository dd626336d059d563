/-
# Tokens and syntax trees (`parser.h`)
-/
import MCompiler.Range

/-- `enum token_type`. -/
inductive TokenType where
  | EEOF | ERROR | ID
  | KW_WHILE | KW_IF | KW_ELSE | KW_VOID | KW_INT64 | KW_RETURN
  | PLUS | MINUS | STRING | MUL | DIV | NUMBER
  | ASSIGN | EQUALS | GREATER | LESS_THAN | LESS_EQ | GREATER_EQ
  | CURLY_OPEN | CURLY_CLOSE | PARAN_OPEN | PARAN_CLOSE | SEMI_COLON
  deriving DecidableEq, Repr

/-- `struct token`, without its position. -/
structure Token where
  type : TokenType
  range : Range := []
  deriving DecidableEq, Repr

/-- `struct ast_node *`: the null pointer or one of the nodes the parser builds.

A prefix `-` multiplies the word behind the node's type by `-1`, whatever it is.  For
a number this is its value.  For a variable it is the pointer to its name, for a
binary expression the pointer to its left child; `wild` says that this pointer has
been negated and no longer points to it. -/
inductive AstNode where
  | null
  | number (num : Int64)
  | variable (varName : Range) (wild : Bool)
  | binaryExp (op : TokenType) (left right : AstNode) (wild : Bool)
  | while (condition block : AstNode)
  | if (condition ifBlock : AstNode)
  | block (childs : List AstNode)
  | return
  | declaration (dataType : TokenType) (assignment : AstNode)
  | function (name : Range) (returnType : TokenType) (argumentCount : ℕ) (childs : List AstNode)

/-- The test `!node`. -/
def AstNode.isNull : AstNode → Bool
  | .null => true
  | _ => false
