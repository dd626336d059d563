/-
# Structured programs and their reference interpretation

The syntax trees that IR creation accepts, as a type of their own (`Expression`,
`Statements`) with the embedding into `AstNode`: assignments, declarations, `if`, `while`,
`return`, and nodes that it passes over.  The reference interpreter works on this type: it
knows scopes and variables, which are numbered in the order of their declarations in the
text, and nothing of basic blocks.  What numbers, operators and conditions mean is a
parameter.
-/
import MCompiler.Ast
import MCompiler.Ir

/-! ## Syntax -/

/-- Expressions without a prefix sign on a variable or a parenthesis. -/
inductive Expression where
  | number (num : Int64)
  | var (varName : Range)
  | binary (op : BinaryOps) (left right : Expression)
  deriving DecidableEq

/-- A node that is no statement, and that `create_statement` passes over. -/
def AstNode.isIgnored : AstNode → Bool
  | .number _ | .variable _ _ | .block _ | .function _ _ _ _ => true
  | _ => false

/-- The statements of a block from one on.  The parser sets the operator of a declaration
to `=`; IR creation does not look at it. -/
inductive Statements where
  | done
  | assign (varName : Range) (value : Expression) (rest : Statements)
  | declare (dataType op : TokenType) (varName : Range) (value : Expression) (rest : Statements)
  | ifThen (condition : Expression) (body rest : Statements)
  | whileDo (condition : Expression) (body rest : Statements)
  | ret (rest : Statements)
  | other (node : AstNode) (ignored : node.isIgnored = true) (rest : Statements)

/-- The token of an operator. -/
def BinaryOps.token : BinaryOps → TokenType
  | .add => .PLUS
  | .sub => .MINUS
  | .mul => .MUL
  | .div => .DIV
  | .equals => .EQUALS
  | .less => .LESS_THAN
  | .greater => .GREATER
  | .lessEq => .LESS_EQ
  | .greaterEq => .GREATER_EQ

/-- The tree of an expression. -/
def Expression.toAst : Expression → AstNode
  | .number num => .number num
  | .var varName => .variable varName false
  | .binary op left right => .binaryExp op.token left.toAst right.toAst false

/-- The tree of an assignment. -/
def assignmentAst (op : TokenType) (varName : Range) (value : Expression) : AstNode :=
  .binaryExp op (.variable varName false) value.toAst false

/-- The trees of statements. -/
def Statements.toAst : Statements → List AstNode
  | .done => []
  | .assign varName value rest => assignmentAst .ASSIGN varName value :: rest.toAst
  | .declare dataType op varName value rest =>
      .declaration dataType (assignmentAst op varName value) :: rest.toAst
  | .ifThen condition body rest => .if condition.toAst (.block body.toAst) :: rest.toAst
  | .whileDo condition body rest => .while condition.toAst (.block body.toAst) :: rest.toAst
  | .ret rest => .return :: rest.toAst
  | .other node _ rest => node :: rest.toAst

/-- The tree of a function without arguments. -/
def functionAst (name : Range) (returnType : TokenType) (body : Statements) : AstNode :=
  .function name returnType 0 [.block body.toAst]

/-- The number of declarations, those in nested blocks included. -/
def Statements.declarations : Statements → ℕ
  | .done => 0
  | .assign _ _ rest => rest.declarations
  | .declare _ _ _ _ rest => 1 + rest.declarations
  | .ifThen _ body rest => body.declarations + rest.declarations
  | .whileDo _ body rest => body.declarations + rest.declarations
  | .ret rest => rest.declarations
  | .other _ _ rest => rest.declarations

/-- The statements include an `if` or a `while`, not counting those nested deeper. -/
def Statements.branches : Statements → Bool
  | .done => false
  | .assign _ _ rest => rest.branches
  | .declare _ _ _ _ rest => rest.branches
  | .ifThen _ _ _ => true
  | .whileDo _ _ _ => true
  | .ret rest => rest.branches
  | .other _ _ rest => rest.branches

/-! ## Scopes -/

/-- The variables of the enclosing blocks, from the inside out. -/
abbrev Scopes := List (Range → Option ℕ)

/-- The variable that a name stands for. -/
def Scopes.lookup : Scopes → Range → Option ℕ
  | [], _ => none
  | scope :: scopes, varName => (scope varName).or (Scopes.lookup scopes varName)

/-- A new variable in the innermost scope. -/
def Scopes.declare : Scopes → Range → ℕ → Scopes
  | [], _, _ => []
  | scope :: scopes, varName, n => Function.update scope varName (some n) :: scopes

/-- A nested block. -/
def Scopes.nest (scopes : Scopes) : Scopes := (fun _ => none) :: scopes

/-- The expression mentions the variable. -/
def Expression.Mentions (varName : Range) : Expression → Prop
  | .number _ => False
  | .var name => name = varName
  | .binary _ left right => left.Mentions varName ∨ right.Mentions varName

instance decidableMentions (varName : Range) : ∀ e : Expression, Decidable (e.Mentions varName)
  | .number _ => isFalse id
  | .var name => inferInstanceAs (Decidable (name = varName))
  | .binary _ left right =>
      have := decidableMentions varName left
      have := decidableMentions varName right
      inferInstanceAs (Decidable (_ ∨ _))

/-- Every variable used is declared in an enclosing scope. -/
def Expression.InScope (scopes : Scopes) : Expression → Prop
  | .number _ => True
  | .var varName => (scopes.lookup varName).isSome
  | .binary _ left right => left.InScope scopes ∧ right.InScope scopes

instance decidableInScope (scopes : Scopes) : ∀ e : Expression, Decidable (e.InScope scopes)
  | .number _ => isTrue trivial
  | .var varName => inferInstanceAs (Decidable ((scopes.lookup varName).isSome = true))
  | .binary _ left right =>
      have := decidableInScope scopes left
      have := decidableInScope scopes right
      inferInstanceAs (Decidable (_ ∧ _))

/-- The statements are such that the parser can build them, every variable used is declared
earlier, as an `int64`, in an enclosing scope, no scope declares a name twice, and no
initialiser mentions the variable it declares.  `n` is the number of the next variable. -/
def Statements.WellScoped : Scopes → ℕ → Statements → Prop
  | _, _, .done => True
  | scopes, n, .assign varName value rest =>
      (scopes.lookup varName).isSome ∧ value.InScope scopes ∧ rest.WellScoped scopes n
  | scopes, n, .declare dataType op varName value rest =>
      (dataType = .KW_INT64 ∧ op = .ASSIGN) ∧
        (scopes.head?.bind (· varName)) = none ∧ value.InScope scopes ∧ ¬ value.Mentions varName ∧
        rest.WellScoped (scopes.declare varName n) (n + 1)
  | scopes, n, .ifThen condition body rest =>
      condition.InScope scopes ∧ body.WellScoped scopes.nest n ∧
        rest.WellScoped scopes (n + body.declarations)
  | scopes, n, .whileDo condition body rest =>
      condition.InScope scopes ∧ body.WellScoped scopes.nest n ∧
        rest.WellScoped scopes (n + body.declarations)
  | scopes, n, .ret rest => rest.WellScoped scopes n
  | _, _, .other _ _ _ => False

instance decidableWellScoped : ∀ (scopes : Scopes) (n : ℕ) (ss : Statements),
    Decidable (ss.WellScoped scopes n)
  | _, _, .done => isTrue trivial
  | scopes, n, .assign _ _ rest =>
      have := decidableWellScoped scopes n rest
      inferInstanceAs (Decidable (_ ∧ _ ∧ _))
  | scopes, n, .declare _ _ varName _ rest =>
      have := decidableWellScoped (scopes.declare varName n) (n + 1) rest
      inferInstanceAs (Decidable ((_ ∧ _) ∧ _ ∧ _ ∧ ¬ _ ∧ _))
  | scopes, n, .ifThen _ body rest =>
      have := decidableWellScoped scopes.nest n body
      have := decidableWellScoped scopes (n + body.declarations) rest
      inferInstanceAs (Decidable (_ ∧ _ ∧ _))
  | scopes, n, .whileDo _ body rest =>
      have := decidableWellScoped scopes.nest n body
      have := decidableWellScoped scopes (n + body.declarations) rest
      inferInstanceAs (Decidable (_ ∧ _ ∧ _))
  | scopes, n, .ret rest => decidableWellScoped scopes n rest
  | _, _, .other _ _ _ => isFalse id

/-- `int64 a = 2; if (a) { a = a + 1; } while (a) { a = a - 1; } return;`. -/
def branchAndCount : Statements :=
  .declare .KW_INT64 .ASSIGN [97] (.number 2)
    (.ifThen (.var [97]) (.assign [97] (.binary .add (.var [97]) (.number 1)) .done)
      (.whileDo (.var [97]) (.assign [97] (.binary .sub (.var [97]) (.number 1)) .done)
        (.ret .done)))

theorem wellScoped_branchAndCount : branchAndCount.WellScoped [fun _ => none] 0 := by decide

/-! ## The reference interpreter -/

/-- What numbers, operators and conditions mean. -/
structure ValueSemantics (V : Type) where
  number : Int64 → V
  binary : BinaryOps → V → V → V
  isTrue : V → Bool

/-- The values of the variables, and the assignments so far. -/
structure Execution (V : Type) where
  vars : ℕ → V
  trace : List (ℕ × V)

/-- An assignment. -/
def Execution.assign {V : Type} (st : Execution V) (n : ℕ) (v : V) : Execution V :=
  ⟨Function.update st.vars n v, st.trace ++ [(n, v)]⟩

/-- How statements are left: at their end, by a return, by an early stop, or because the
number of steps is used up. -/
inductive Outcome where
  | normal | returned | stopped | cut
  deriving DecidableEq

section Interpreter

variable {V : Type} (sem : ValueSemantics V)

/-- The value of an expression; names that are not in scope stand for the variable `0`. -/
def Expression.eval (scopes : Scopes) (vars : ℕ → V) : Expression → V
  | .number num => sem.number num
  | .var varName => vars ((scopes.lookup varName).getD 0)
  | .binary op left right => sem.binary op (left.eval scopes vars) (right.eval scopes vars)

/-- The interpretation of statements in at most `fuel` steps.  When the body of a `while`
has been completed, and `quits` holds of it, the interpretation stops. -/
def Statements.exec (quits : Statements → Bool) :
    ℕ → Scopes → ℕ → Statements → Execution V → Outcome × Execution V
  | 0, _, _, _, st => (.cut, st)
  | _ + 1, _, _, .done, st => (.normal, st)
  | fuel + 1, scopes, n, .assign varName value rest, st =>
      Statements.exec quits fuel scopes n rest
        (st.assign ((scopes.lookup varName).getD 0) (value.eval sem scopes st.vars))
  | fuel + 1, scopes, n, .declare _ _ varName value rest, st =>
      Statements.exec quits fuel (scopes.declare varName n) (n + 1) rest
        (st.assign n (value.eval sem scopes st.vars))
  | fuel + 1, scopes, n, .ifThen condition body rest, st =>
      if sem.isTrue (condition.eval sem scopes st.vars) then
        match Statements.exec quits fuel scopes.nest n body st with
        | (.normal, st) => Statements.exec quits fuel scopes (n + body.declarations) rest st
        | r => r
      else Statements.exec quits fuel scopes (n + body.declarations) rest st
  | fuel + 1, scopes, n, .whileDo condition body rest, st =>
      if sem.isTrue (condition.eval sem scopes st.vars) then
        match Statements.exec quits fuel scopes.nest n body st with
        | (.normal, st) =>
            if quits body then (.stopped, st)
            else Statements.exec quits fuel scopes n (.whileDo condition body rest) st
        | r => r
      else Statements.exec quits fuel scopes (n + body.declarations) rest st
  | _ + 1, _, _, .ret _, st => (.returned, st)
  | fuel + 1, scopes, n, .other _ _ rest, st => Statements.exec quits fuel scopes n rest st

/-- The reference interpretation of the body of a function: it never stops early. -/
def Statements.interpret (body : Statements) (n : ℕ) (vars : ℕ → V) (fuel : ℕ) :
    Outcome × Execution V :=
  body.exec sem (fun _ => false) fuel [fun _ => none] n ⟨vars, []⟩

end Interpreter

/-! ## Scopes and values -/

/-- A name that is declared stands for the new variable, the others as before. -/
theorem lookup_declare (scopes : Scopes) (hne : scopes ≠ []) (varName name : Range) (n : ℕ) :
    (scopes.declare varName n).lookup name =
      if name = varName then some n else scopes.lookup name := by
  cases scopes with
  | nil => exact absurd rfl hne
  | cons scope scopes =>
      show ((Function.update scope varName (some n)) name).or _ = _
      by_cases h : name = varName
      · rw [if_pos h, h, Function.update_self]
        rfl
      · rw [if_neg h, Function.update_of_ne h]
        rfl

@[simp] theorem lookup_nest (scopes : Scopes) (name : Range) :
    scopes.nest.lookup name = scopes.lookup name := rfl

/-- A declaration does not change what another name stands for. -/
theorem lookup_declare_of_ne (scopes : Scopes) {varName name : Range} (hne : name ≠ varName)
    (n : ℕ) : (scopes.declare varName n).lookup name = scopes.lookup name := by
  cases scopes with
  | nil => rfl
  | cons scope scopes => rw [lookup_declare _ (List.cons_ne_nil _ _), if_neg hne]

/-- An expression that does not mention a name does not see its declaration. -/
theorem inScope_declare {scopes : Scopes} {varName : Range} {n : ℕ} {e : Expression}
    (hmention : ¬ e.Mentions varName) (h : e.InScope scopes) :
    e.InScope (scopes.declare varName n) := by
  induction e with
  | number num => trivial
  | var name =>
      show ((scopes.declare varName n).lookup name).isSome
      rw [lookup_declare_of_ne scopes (show ¬ name = varName from hmention)]
      exact h
  | binary op left right ihl ihr =>
      obtain ⟨hl, hr⟩ := not_or.mp hmention
      exact ⟨ihl hl h.1, ihr hr h.2⟩

theorem eval_declare {V : Type} (sem : ValueSemantics V) {scopes : Scopes} {varName : Range}
    {n : ℕ} {e : Expression} (hmention : ¬ e.Mentions varName) (vars : ℕ → V) :
    e.eval sem (scopes.declare varName n) vars = e.eval sem scopes vars := by
  induction e with
  | number num => rfl
  | var name =>
      show vars (((scopes.declare varName n).lookup name).getD 0) = _
      rw [lookup_declare_of_ne scopes (show ¬ name = varName from hmention)]
      rfl
  | binary op left right ihl ihr =>
      obtain ⟨hl, hr⟩ := not_or.mp hmention
      show sem.binary op _ _ = sem.binary op _ _
      rw [ihl hl, ihr hr]
