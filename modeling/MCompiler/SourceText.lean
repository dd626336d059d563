/-
# Programs as text

A function with structured statements as it is written down, with each operand that is an
operation in parentheses and each block in braces, and what the parser makes of it:

* `parserParseFunction_layout` : on every layout of the tokens of a readable function the
  parser returns its syntax tree, with `<` for `>` and `<=` for `>=`;
* `compileText_executes` : from a text to SSA form.
-/
import MCompiler.SourceTokens
import MCompiler.ParserAccepts
import MCompiler.DecimalNumerals
import MCompiler.SsaCreatedRoom

/-! ## The tokens of a program -/

/-- How the tokens of a type are written that are all the same. -/
def TokenType.spelling (type : TokenType) : Range :=
  (((symbols ++ keywords).find? fun s => s.2 = type).map Prod.fst).getD []

/-- The token of a type, as it is written. -/
def TokenType.written (type : TokenType) : Token := ⟨type, type.spelling⟩

/-- The token of a number that is not negative. -/
def numeralToken (n : ℕ) : Token := ⟨.NUMBER, decimalBytes n⟩

/-- An operand, in parentheses if it is an operation. -/
def Expression.enclosed (ts : List Token) : Expression → List Token
  | .binary _ _ _ => TokenType.written .PARAN_OPEN :: (ts ++ [TokenType.written .PARAN_CLOSE])
  | _ => ts

/-- The tokens of an expression. -/
def Expression.tokens : Expression → List Token
  | .number num =>
      if num.toInt < 0 then [TokenType.written .MINUS, numeralToken num.toInt.natAbs]
      else [numeralToken num.toInt.natAbs]
  | .var varName => [⟨.ID, varName⟩]
  | .binary op left right =>
      left.enclosed left.tokens ++ op.token.written :: right.enclosed right.tokens

/-- A block. -/
def bracedTokens (ts : List Token) : List Token :=
  TokenType.written .CURLY_OPEN :: (ts ++ [TokenType.written .CURLY_CLOSE])

/-- The tokens from the `=` of an assignment to the `;`. -/
def assignedTokens (value : Expression) : List Token :=
  TokenType.written .ASSIGN :: (value.tokens ++ [TokenType.written .SEMI_COLON])

/-- The tokens of an `if` or a `while`. -/
def conditionalTokens (keyword : TokenType) (condition : Expression) (body : List Token) :
    List Token :=
  keyword.written :: TokenType.written .PARAN_OPEN ::
    (condition.tokens ++ TokenType.written .PARAN_CLOSE :: bracedTokens body)

/-- The tokens of statements.  Nodes that are no statements cannot be written. -/
def Statements.tokens : Statements → List Token
  | .done => []
  | .assign varName value rest => ⟨.ID, varName⟩ :: (assignedTokens value ++ rest.tokens)
  | .declare dataType _ varName value rest =>
      dataType.written :: ⟨.ID, varName⟩ :: (assignedTokens value ++ rest.tokens)
  | .ifThen condition body rest => conditionalTokens .KW_IF condition body.tokens ++ rest.tokens
  | .whileDo condition body rest =>
      conditionalTokens .KW_WHILE condition body.tokens ++ rest.tokens
  | .ret rest => TokenType.written .KW_RETURN :: TokenType.written .SEMI_COLON :: rest.tokens
  | .other _ _ rest => rest.tokens

/-- The tokens of a function. -/
def functionTokens (name : Range) (returnType : TokenType) (body : Statements) : List Token :=
  returnType.written :: ⟨.ID, name⟩ :: TokenType.written .PARAN_OPEN ::
    TokenType.written .PARAN_CLOSE :: bracedTokens body.tokens

/-! ## What can be read -/

/-- The operator as it is read. -/
def BinaryOps.asRead : BinaryOps → BinaryOps
  | .greater => .less
  | .greaterEq => .lessEq
  | op => op

/-- The expression as it is read. -/
def Expression.asRead : Expression → Expression
  | .binary op left right => .binary op.asRead left.asRead right.asRead
  | e => e

/-- The statements as they are read. -/
def Statements.asRead : Statements → Statements
  | .done => .done
  | .assign varName value rest => .assign varName value.asRead rest.asRead
  | .declare dataType op varName value rest => .declare dataType op varName value.asRead rest.asRead
  | .ifThen condition body rest => .ifThen condition.asRead body.asRead rest.asRead
  | .whileDo condition body rest => .whileDo condition.asRead body.asRead rest.asRead
  | .ret rest => .ret rest.asRead
  | .other node ignored rest => .other node ignored rest.asRead

/-- An identifier. -/
def isName : Range → Bool
  | [] => false
  | c :: word => isLetter c && word.all isWordChar && wordType (c :: word) = .ID

theorem isName_iff {word : Range} : isName word ↔ IsToken .ID word := by
  cases word with
  | nil => exact iff_of_false Bool.noConfusion fun h => h.ne_nil rfl
  | cons c word =>
      simp only [isName, Bool.and_eq_true, List.all_eq_true, decide_eq_true_eq]
      constructor
      · rintro ⟨⟨hc, hword⟩, htype⟩
        exact htype ▸ isToken_wordType hc hword
      · intro h
        cases h with
        | symbol h =>
            have hsymbols : ∀ s ∈ symbols, s.2 ≠ .ID := by decide
            exact absurd rfl (hsymbols _ h)
        | keyword h =>
            have hkeywords : ∀ s ∈ keywords, s.2 ≠ .ID := by decide
            exact absurd rfl (hkeywords _ h)
        | id hc hword hno =>
            exact ⟨⟨hc, hword⟩, (isToken_wordType hc hword).unique (.id hc hword hno)⟩

instance {word : Range} : Decidable (IsToken .ID word) := decidable_of_iff _ isName_iff

/-- The names are identifiers, the absolute values of the numbers are those of an `int`, and no
operation is a `<` or a `<=`, which the tokenizer does not come past. -/
def Expression.Readable : Expression → Prop
  | .number num => num.toInt.natAbs ≤ 2147483647
  | .var varName => IsToken .ID varName
  | .binary op left right =>
      op ≠ .less ∧ op ≠ .lessEq ∧ left.Readable ∧ right.Readable

instance decidableExpressionReadable : ∀ e : Expression, Decidable e.Readable
  | .number num => inferInstanceAs (Decidable (num.toInt.natAbs ≤ 2147483647))
  | .var varName => inferInstanceAs (Decidable (IsToken .ID varName))
  | .binary _ left right =>
      have := decidableExpressionReadable left
      have := decidableExpressionReadable right
      inferInstanceAs (Decidable (_ ∧ _ ∧ _ ∧ _))

/-- The number of statements, not counting those nested deeper. -/
def Statements.length : Statements → ℕ
  | .done => 0
  | .assign _ _ rest => rest.length + 1
  | .declare _ _ _ _ rest => rest.length + 1
  | .ifThen _ _ rest => rest.length + 1
  | .whileDo _ _ rest => rest.length + 1
  | .ret rest => rest.length + 1
  | .other _ _ rest => rest.length + 1

/-- The expressions can be read, and the blocks have at most 16 statements. -/
def Statements.Readable : Statements → Prop
  | .done => True
  | .assign varName value rest => IsToken .ID varName ∧ value.Readable ∧ rest.Readable
  | .declare dataType op varName value rest => isDataType dataType ∧ op = .ASSIGN ∧
      IsToken .ID varName ∧ value.Readable ∧ rest.Readable
  | .ifThen condition body rest =>
      condition.Readable ∧ (body.length ≤ 16 ∧ body.Readable) ∧ rest.Readable
  | .whileDo condition body rest =>
      condition.Readable ∧ (body.length ≤ 16 ∧ body.Readable) ∧ rest.Readable
  | .ret rest => rest.Readable
  | .other _ _ _ => False

instance decidableStatementsReadable : ∀ ss : Statements, Decidable ss.Readable
  | .done => isTrue trivial
  | .assign _ _ rest =>
      have := decidableStatementsReadable rest
      inferInstanceAs (Decidable (_ ∧ _ ∧ _))
  | .declare _ _ _ _ rest =>
      have := decidableStatementsReadable rest
      inferInstanceAs (Decidable (_ ∧ _ ∧ _ ∧ _ ∧ _))
  | .ifThen _ body rest =>
      have := decidableStatementsReadable body
      have := decidableStatementsReadable rest
      inferInstanceAs (Decidable (_ ∧ (_ ∧ _) ∧ _))
  | .whileDo _ body rest =>
      have := decidableStatementsReadable body
      have := decidableStatementsReadable rest
      inferInstanceAs (Decidable (_ ∧ (_ ∧ _) ∧ _))
  | .ret rest => decidableStatementsReadable rest
  | .other _ _ _ => isFalse id

/-! ## Phrases and lists of statements -/

/-- The operator of an expression, as it is read. -/
def BinaryOps.operator (op : BinaryOps) : Operator :=
  ⟨op.token.written.asRead, by cases op <;> decide⟩

@[inherit_doc numeralToken]
def numeralPhrase (n : ℕ) : Phrase := .number ((decimalBytes n).headD 0) (decimalBytes n).tail

@[inherit_doc Expression.enclosed]
def Expression.enclosedPhrase (e : Phrase) : Expression → Phrase
  | .binary _ _ _ => .group (TokenType.spelling .PARAN_OPEN) e (TokenType.written .PARAN_CLOSE)
  | _ => e

/-- What is read for an expression. -/
def Expression.phrase : Expression → Phrase
  | .number num =>
      if num.toInt < 0 then .signed (TokenType.written .MINUS) (numeralPhrase num.toInt.natAbs)
      else numeralPhrase num.toInt.natAbs
  | .var varName => .ident varName
  | .binary op left right =>
      .next (left.enclosedPhrase left.phrase) op.operator (right.enclosedPhrase right.phrase)

/-- The tokens around a block. -/
def braces : Braces := some (TokenType.spelling .CURLY_OPEN, TokenType.spelling .CURLY_CLOSE)

/-- What is read for an `if` or a `while`. -/
def conditionalList (keyword : TokenType) (condition : Expression) (body rest : StatementList) :
    StatementList :=
  .conditional keyword.written (TokenType.spelling .PARAN_OPEN) condition.phrase
    (TokenType.spelling .PARAN_CLOSE) braces body rest

/-- What is read for statements. -/
def Statements.list : Statements → StatementList
  | .done => .done
  | .assign varName value rest => .assignment varName (TokenType.spelling .ASSIGN) value.phrase
      (TokenType.spelling .SEMI_COLON) rest.list
  | .declare dataType _ varName value rest => .declaration dataType.written ⟨.ID, varName⟩
      (TokenType.written .ASSIGN) value.phrase (TokenType.spelling .SEMI_COLON) rest.list
  | .ifThen condition body rest => conditionalList .KW_IF condition body.list rest.list
  | .whileDo condition body rest => conditionalList .KW_WHILE condition body.list rest.list
  | .ret rest =>
      .return (TokenType.spelling .KW_RETURN) (TokenType.spelling .SEMI_COLON) rest.list
  | .other _ _ rest => rest.list

/-- What is read for a function. -/
def functionText (name : Range) (returnType : TokenType) (body : Statements) : FunctionText where
  dataType := returnType.written
  name := name
  opening := TokenType.spelling .PARAN_OPEN
  closing := TokenType.spelling .PARAN_CLOSE
  braces := braces
  body := body.list

/-! ## Their tokens -/

theorem headD_cons_tail {α : Type} {l : List α} (h : l ≠ []) (a : α) : l.headD a :: l.tail = l := by
  cases l with
  | nil => exact absurd rfl h
  | cons b l => rfl

theorem numeralPhrase_digits (n : ℕ) :
    (decimalBytes n).headD 0 :: (decimalBytes n).tail = decimalBytes n :=
  headD_cons_tail (decimalBytes_isNumeral n).ne_nil 0

theorem numeralPhrase_tokens (n : ℕ) : (numeralPhrase n).tokens = [numeralToken n] := by
  rw [numeralPhrase, Phrase.tokens, numeralPhrase_digits]
  rfl

theorem enclosedPhrase_tokens {e : Expression} {phrase : Phrase} {ts : List Token}
    (h : ts.map Token.asRead = phrase.tokens) :
    (e.enclosed ts).map Token.asRead = (e.enclosedPhrase phrase).tokens := by
  cases e with
  | binary op left right =>
      show (TokenType.written .PARAN_OPEN :: (ts ++ _)).map Token.asRead = _ :: (phrase.tokens ++ _)
      rw [← h, List.map_cons, List.map_append]
      rfl
  | _ => exact h

theorem Expression.phrase_tokens (e : Expression) : e.tokens.map Token.asRead = e.phrase.tokens := by
  induction e with
  | number num =>
      rw [Expression.tokens, Expression.phrase]
      split
      · rw [Phrase.tokens, numeralPhrase_tokens]
        rfl
      · rw [numeralPhrase_tokens]
        rfl
  | var varName => rfl
  | binary op left right ihl ihr =>
      rw [Expression.tokens, List.map_append, List.map_cons, enclosedPhrase_tokens ihl,
        enclosedPhrase_tokens ihr]
      rfl

theorem assignedTokens_asRead (value : Expression) : (assignedTokens value).map Token.asRead =
    TokenType.written .ASSIGN :: (value.phrase.tokens ++ [TokenType.written .SEMI_COLON]) := by
  rw [assignedTokens, List.map_cons, List.map_append, value.phrase_tokens]
  rfl

theorem bracedTokens_asRead {ts ts' : List Token} (h : ts.map Token.asRead = ts') :
    (bracedTokens ts).map Token.asRead = blockTokens braces ts' := by
  rw [bracedTokens, List.map_cons, List.map_append, h]
  rfl

theorem conditionalTokens_asRead {keyword : TokenType} (hkeyword : keyword.asRead = keyword)
    (condition : Expression) {body rest : List Token} {body' rest' : StatementList}
    (hbody : body.map Token.asRead = body'.tokens) (hrest : rest.map Token.asRead = rest'.tokens) :
    (conditionalTokens keyword condition body ++ rest).map Token.asRead =
      (conditionalList keyword condition body' rest').tokens := by
  have hwritten : keyword.written.asRead = keyword.written := by
    rw [Token.asRead, TokenType.written, hkeyword]
  rw [List.map_append, hrest, conditionalTokens, List.map_cons, List.map_cons, List.map_append,
    List.map_cons, condition.phrase_tokens, bracedTokens_asRead hbody, hwritten, conditionalList,
    StatementList.tokens, List.cons_append, List.cons_append, List.append_assoc]
  rfl

theorem isDataType_asRead {type : TokenType} (h : isDataType type) : type.asRead = type := by
  cases type <;> first | rfl | cases h

theorem written_asRead {type : TokenType} (h : isDataType type) :
    type.written.asRead = type.written := by
  rw [Token.asRead, TokenType.written, isDataType_asRead h]

theorem Statements.list_tokens (ss : Statements) (h : ss.Readable) :
    ss.tokens.map Token.asRead = ss.list.tokens := by
  induction ss with
  | done => rfl
  | assign varName value rest ih =>
      rw [Statements.tokens, List.map_cons, List.map_append, assignedTokens_asRead, ih h.2.2,
        Statements.list, StatementList.tokens, List.cons_append, List.append_assoc]
      rfl
  | declare dataType op varName value rest ih =>
      obtain ⟨htype, -, -, -, hrest⟩ := h
      rw [Statements.tokens, List.map_cons, List.map_cons, List.map_append, assignedTokens_asRead,
        ih hrest, written_asRead htype, Statements.list, StatementList.tokens, List.cons_append,
        List.append_assoc]
      rfl
  | ifThen condition body rest ihbody ihrest =>
      exact conditionalTokens_asRead rfl condition (ihbody h.2.1.2) (ihrest h.2.2)
  | whileDo condition body rest ihbody ihrest =>
      exact conditionalTokens_asRead rfl condition (ihbody h.2.1.2) (ihrest h.2.2)
  | ret rest ih =>
      rw [Statements.tokens, List.map_cons, List.map_cons, ih h]
      rfl
  | other node ignored rest ih => exact h.elim

theorem functionText_tokens {name : Range} {returnType : TokenType} (htype : isDataType returnType)
    {body : Statements} (h : body.Readable) :
    (functionTokens name returnType body).map Token.asRead =
      (functionText name returnType body).tokens := by
  rw [functionTokens, List.map_cons, List.map_cons, List.map_cons, List.map_cons,
    bracedTokens_asRead (body.list_tokens h), written_asRead htype]
  rfl

/-! ## Their trees -/

theorem numeralPhrase_operand {n : ℕ} (hn : n ≤ 2147483647) :
    (numeralPhrase n).operand = .number (Int64.ofInt n) := by
  have hnumeral : IsIntNumeral (n : ℤ) (decimalBytes n) := decimalBytes_isNumeral n
  have hparse := rangeParseInt_numeral (by omega) (by omega) hnumeral
  rw [numeralPhrase, Phrase.operand, Phrase.operands, numeralPhrase_digits, hparse]
  rfl

/-- What is read for an operand. -/
structure ReadsOperand (a : Phrase) (node : AstNode) : Prop where
  isOperand : a.IsOperand
  valid : a.Valid false
  there : ¬ a.IsMissing
  node : a.operand = node

/-- What is read for an expression. -/
structure ReadsExpression (e : Phrase) (node : AstNode) : Prop where
  isExpression : e.IsExpression
  node : e.parsed = node

theorem ReadsOperand.expression {a : Phrase} {node : AstNode} (h : ReadsOperand a node) :
    ReadsExpression a node := by
  refine ⟨⟨h.valid, ?_, h.there⟩, (h.valid.parsed_operand h.isOperand).trans h.node⟩
  cases a with
  | next e op a => exact h.isOperand.elim
  | _ => trivial

theorem ReadsExpression.group {e : Phrase} {node : AstNode} (h : ReadsExpression e node)
    (opening : Range) : ReadsOperand (.group opening e (TokenType.written .PARAN_CLOSE)) node where
  isOperand := trivial
  valid := ⟨h.isExpression.1, h.isExpression.2.1, .inr rfl⟩
  there := fun hmissing => hmissing.elim (fun hne => hne rfl) h.isExpression.2.2
  node := by
    rw [Phrase.operand_group]
    exact (if_pos rfl).trans h.node

/-- An operator and its operands. -/
theorem ReadsOperand.next {a b : Phrase} {l r : AstNode} (ha : ReadsOperand a l)
    (hb : ReadsOperand b r) (op : Operator) :
    ReadsExpression (.next a op b) (binaryNode op l r) := by
  have hvalid : (Phrase.next a op b).Valid false :=
    ⟨ha.valid, hb.valid, hb.isOperand, fun hbreaks => ha.there hbreaks.2⟩
  refine ⟨⟨hvalid, fun _ hmissing => absurd hmissing ha.there, hb.there⟩, ?_⟩
  have hgap : ¬ HasGap Phrase.operand (Phrase.next a op b).rest :=
    mt hvalid.hasGap.mp fun hbreaks => hb.there hbreaks.2
  rw [Phrase.parsed_eq, chainNode_of_not_gap hgap, Phrase.rest, Phrase.rest_eq_nil.mpr ha.isOperand,
    Phrase.first, Phrase.first_of_isOperand ha.isOperand, ← ha.node, ← hb.node]
  rfl

theorem numeral_reads {num : Int64} (h : num.toInt.natAbs ≤ 2147483647) :
    ReadsOperand (Expression.number num).phrase (.number num) := by
  have hn := numeralPhrase_operand h
  have hnum : Int64.ofInt num.toInt = num := Int64.ofInt_toInt num
  rw [Expression.phrase]
  split
  · refine ⟨trivial, ⟨rfl, trivial, trivial, .inr ⟨rfl, id⟩⟩, id, ?_⟩
    rw [Phrase.operand_signed, hn]
    show AstNode.number (Int64.ofInt num.toInt.natAbs * -1) = _
    have hneg : (num.toInt.natAbs : ℤ) * -1 = num.toInt := by omega
    rw [show (-1 : Int64) = Int64.ofInt (-1) from rfl, ← Int64.ofInt_mul, hneg, hnum]
  · refine ⟨trivial, trivial, id, ?_⟩
    rw [hn, show (num.toInt.natAbs : ℤ) = num.toInt by omega, hnum]

theorem asRead_token (op : BinaryOps) : op.token.asRead = op.asRead.token := by
  cases op <;> rfl

/-- **An expression is read as its tree**, and so is an operand. -/
theorem Expression.Readable.reads {e : Expression} (h : e.Readable) :
    ReadsExpression e.phrase e.asRead.toAst ∧
      ReadsOperand (e.enclosedPhrase e.phrase) e.asRead.toAst := by
  induction e with
  | number num => exact ⟨(numeral_reads h).expression, numeral_reads h⟩
  | var varName =>
      have hreads : ReadsOperand (.ident varName) (.variable varName false) :=
        ⟨trivial, trivial, id, rfl⟩
      exact ⟨hreads.expression, hreads⟩
  | binary op left right ihl ihr =>
      have hnext := (ihl h.2.2.1).2.next (ihr h.2.2.2).2 op.operator
      have hnode : binaryNode op.operator left.asRead.toAst right.asRead.toAst =
          (Expression.binary op left right).asRead.toAst := by
        rw [binaryNode, Expression.asRead, Expression.toAst, ← asRead_token]
        rfl
      rw [hnode] at hnext
      exact ⟨hnext, hnext.group _⟩

theorem Statements.list_length (ss : Statements) (h : ss.Readable) : ss.list.length = ss.length := by
  induction ss with
  | done => rfl
  | assign varName value rest ih => exact congrArg (· + 1) (ih h.2.2)
  | declare dataType op varName value rest ih => exact congrArg (· + 1) (ih h.2.2.2.2)
  | ifThen condition body rest _ ih => exact congrArg (· + 1) (ih h.2.2)
  | whileDo condition body rest _ ih => exact congrArg (· + 1) (ih h.2.2)
  | ret rest ih => exact congrArg (· + 1) (ih h)
  | other node ignored rest ih => exact h.elim

/-- What is read for a block. -/
structure ReadsStatements (ss : StatementList) (nodes : List AstNode) : Prop where
  valid : ss.Valid
  within : ss.BlocksWithin 16
  nodes : ss.nodes = nodes

theorem ReadsStatements.conditional {keyword : TokenType}
    (hkeyword : keyword = .KW_IF ∨ keyword = .KW_WHILE) {condition : Expression}
    (hcondition : condition.Readable) {body rest : StatementList} {nodes nodes' : List AstNode}
    (hlength : body.length ≤ 16) (hbody : ReadsStatements body nodes)
    (hrest : ReadsStatements rest nodes') :
    ReadsStatements (conditionalList keyword condition body rest)
      ((if keyword = .KW_IF then .if condition.asRead.toAst (.block nodes)
        else .while condition.asRead.toAst (.block nodes)) :: nodes') := by
  have hreads := hcondition.reads.1
  have hbraces : braces ≠ none := Option.some_ne_none _
  refine ⟨⟨hkeyword, hreads.isExpression, fun hnone => absurd hnone hbraces, hbody.valid,
    hrest.valid⟩, ⟨hlength, hbody.within, hrest.within⟩, ?_⟩
  rw [conditionalList, StatementList.nodes, hreads.node, hbody.nodes, hrest.nodes]
  rfl

/-- **Statements are read as their trees.** -/
theorem Statements.Readable.reads {ss : Statements} (h : ss.Readable) :
    ReadsStatements ss.list ss.asRead.toAst := by
  induction ss with
  | done => exact ⟨trivial, trivial, rfl⟩
  | assign varName value rest ih =>
      obtain ⟨-, hvalue, hrest⟩ := h
      have hreads := hvalue.reads.1
      refine ⟨⟨hreads.isExpression, (ih hrest).valid⟩, (ih hrest).within, ?_⟩
      rw [Statements.list, StatementList.nodes, StatementList.assignNode, hreads.node,
        (ih hrest).nodes]
      rfl
  | declare dataType op varName value rest ih =>
      obtain ⟨htype, rfl, -, hvalue, hrest⟩ := h
      have hreads := hvalue.reads.1
      refine ⟨⟨htype, hreads.isExpression, (ih hrest).valid⟩, (ih hrest).within, ?_⟩
      rw [Statements.list, StatementList.nodes, StatementList.assignNode, hreads.node,
        (ih hrest).nodes]
      rfl
  | ifThen condition body rest ihbody ihrest =>
      obtain ⟨hcondition, ⟨hlength, hbody⟩, hrest⟩ := h
      rw [← body.list_length hbody] at hlength
      exact .conditional (.inl rfl) hcondition hlength (ihbody hbody) (ihrest hrest)
  | whileDo condition body rest ihbody ihrest =>
      obtain ⟨hcondition, ⟨hlength, hbody⟩, hrest⟩ := h
      rw [← body.list_length hbody] at hlength
      exact .conditional (.inr rfl) hcondition hlength (ihbody hbody) (ihrest hrest)
  | ret rest ih =>
      exact ⟨(ih h).valid, (ih h).within, congrArg (AstNode.return :: ·) (ih h).nodes⟩
  | other node ignored rest ih => exact h.elim

/-! ## Their words -/

/-- A word that the tokenizer takes for this token, up to `>` and `>=`. -/
def Token.Readable (t : Token) : Prop := IsToken t.type t.range ∧ ¬ t.IsLess

theorem written_isToken {type : TokenType} (h : type.spelling ≠ []) :
    IsToken type type.spelling := by
  unfold TokenType.spelling at h ⊢
  cases hfind : (symbols ++ keywords).find? fun s => s.2 = type with
  | none =>
      rw [hfind] at h
      exact absurd rfl h
  | some s =>
      have htype : s.2 = type := by simpa using List.find?_some hfind
      subst htype
      rcases List.mem_append.mp (List.mem_of_find?_eq_some hfind) with hs | hs
      · exact .symbol hs
      · exact .keyword hs

/-- The types whose tokens are all the same, but for `<` and `<=`. -/
def TokenType.isFixed (type : TokenType) : Bool :=
  !type.spelling.isEmpty && type ≠ .LESS_THAN && type ≠ .LESS_EQ

theorem written_readable (type : TokenType) (h : type.isFixed) : type.written.Readable := by
  simp only [TokenType.isFixed, Bool.and_eq_true, Bool.not_eq_true', decide_eq_true_eq] at h
  have hne : type.spelling ≠ [] := fun hnil => by
    rw [hnil] at h
    exact Bool.noConfusion h.1.1
  exact ⟨written_isToken hne, fun hor => hor.elim h.1.2 h.2⟩

theorem id_readable {name : Range} (h : IsToken .ID name) : Token.Readable ⟨.ID, name⟩ :=
  ⟨h, fun hor => hor.elim TokenType.noConfusion TokenType.noConfusion⟩

theorem numeral_readable (n : ℕ) : (numeralToken n).Readable :=
  ⟨(decimalBytes_isNumeral n).isToken, fun hor => hor.elim TokenType.noConfusion
    TokenType.noConfusion⟩

theorem enclosed_readable {e : Expression} {ts : List Token} (h : ∀ t ∈ ts, t.Readable) :
    ∀ t ∈ e.enclosed ts, t.Readable := by
  cases e with
  | binary op left right =>
      refine List.forall_mem_cons.mpr ⟨written_readable _ (by decide), ?_⟩
      refine List.forall_mem_append.mpr ⟨h, List.forall_mem_singleton.mpr ?_⟩
      exact written_readable _ (by decide)
  | _ => exact h

theorem Expression.Readable.tokens {e : Expression} (h : e.Readable) :
    ∀ t ∈ e.tokens, t.Readable := by
  induction e with
  | number num =>
      rw [Expression.tokens]
      split
      · refine List.forall_mem_cons.mpr ⟨written_readable _ (by decide), ?_⟩
        exact List.forall_mem_singleton.mpr (numeral_readable _)
      · exact List.forall_mem_singleton.mpr (numeral_readable _)
  | var varName => exact List.forall_mem_singleton.mpr (id_readable h)
  | binary op left right ihl ihr =>
      obtain ⟨hless, hle, hl, hr⟩ := h
      have hop : op.token.written.Readable := by
        refine written_readable _ ?_
        cases op <;> first | decide | contradiction
      exact List.forall_mem_append.mpr ⟨enclosed_readable (ihl hl),
        List.forall_mem_cons.mpr ⟨hop, enclosed_readable (ihr hr)⟩⟩

section Tokens

variable {ts ts' : List Token} {keyword : TokenType} {condition value : Expression}

theorem bracedTokens_readable (h : ∀ t ∈ ts, t.Readable) : ∀ t ∈ bracedTokens ts, t.Readable := by
  refine List.forall_mem_cons.mpr ⟨written_readable _ (by decide), ?_⟩
  refine List.forall_mem_append.mpr ⟨h, List.forall_mem_singleton.mpr ?_⟩
  exact written_readable _ (by decide)

theorem assignedTokens_readable (h : value.Readable) :
    ∀ t ∈ assignedTokens value, t.Readable := by
  refine List.forall_mem_cons.mpr ⟨written_readable _ (by decide), ?_⟩
  refine List.forall_mem_append.mpr ⟨h.tokens, List.forall_mem_singleton.mpr ?_⟩
  exact written_readable _ (by decide)

theorem conditionalTokens_readable (hkeyword : keyword.written.Readable)
    (hcondition : condition.Readable) (hts : ∀ t ∈ ts, t.Readable) :
    ∀ t ∈ conditionalTokens keyword condition ts, t.Readable := by
  have hopen := written_readable .PARAN_OPEN (by decide)
  have hclose := written_readable .PARAN_CLOSE (by decide)
  exact List.forall_mem_cons.mpr ⟨hkeyword, List.forall_mem_cons.mpr ⟨hopen,
    List.forall_mem_append.mpr ⟨hcondition.tokens, List.forall_mem_cons.mpr ⟨hclose,
      bracedTokens_readable hts⟩⟩⟩⟩

theorem dataType_readable {type : TokenType} (h : isDataType type) : type.written.Readable := by
  refine written_readable _ ?_
  cases type <;> first | decide | cases h

end Tokens

theorem Statements.Readable.tokens {ss : Statements} (h : ss.Readable) :
    ∀ t ∈ ss.tokens, t.Readable := by
  induction ss with
  | done => exact fun t ht => absurd ht List.not_mem_nil
  | assign varName value rest ih =>
      obtain ⟨hname, hvalue, hrest⟩ := h
      exact List.forall_mem_cons.mpr ⟨id_readable hname,
        List.forall_mem_append.mpr ⟨assignedTokens_readable hvalue, ih hrest⟩⟩
  | declare dataType op varName value rest ih =>
      obtain ⟨htype, -, hname, hvalue, hrest⟩ := h
      exact List.forall_mem_cons.mpr ⟨dataType_readable htype,
        List.forall_mem_cons.mpr ⟨id_readable hname,
          List.forall_mem_append.mpr ⟨assignedTokens_readable hvalue, ih hrest⟩⟩⟩
  | ifThen condition body rest ihbody ihrest =>
      obtain ⟨hcondition, ⟨-, hbody⟩, hrest⟩ := h
      have hkeyword := written_readable .KW_IF (by decide)
      exact List.forall_mem_append.mpr
        ⟨conditionalTokens_readable hkeyword hcondition (ihbody hbody), ihrest hrest⟩
  | whileDo condition body rest ihbody ihrest =>
      obtain ⟨hcondition, ⟨-, hbody⟩, hrest⟩ := h
      have hkeyword := written_readable .KW_WHILE (by decide)
      exact List.forall_mem_append.mpr
        ⟨conditionalTokens_readable hkeyword hcondition (ihbody hbody), ihrest hrest⟩
  | ret rest ih =>
      have hreturn := written_readable .KW_RETURN (by decide)
      have hsemi := written_readable .SEMI_COLON (by decide)
      exact List.forall_mem_cons.mpr ⟨hreturn, List.forall_mem_cons.mpr ⟨hsemi, ih h⟩⟩
  | other node ignored rest ih => exact h.elim

theorem functionTokens_readable {name : Range} {returnType : TokenType} {body : Statements}
    (htype : isDataType returnType) (hname : IsToken .ID name) (hbody : body.Readable) :
    ∀ t ∈ functionTokens name returnType body, t.Readable := by
  have hopen := written_readable .PARAN_OPEN (by decide)
  have hclose := written_readable .PARAN_CLOSE (by decide)
  exact List.forall_mem_cons.mpr ⟨dataType_readable htype, List.forall_mem_cons.mpr
    ⟨id_readable hname, List.forall_mem_cons.mpr ⟨hopen, List.forall_mem_cons.mpr
      ⟨hclose, bracedTokens_readable hbody.tokens⟩⟩⟩⟩

/-! ## From a text to its tree -/

/-- The parser has taken all tokens of the text. -/
def TakenAll (p : Parser Reader) : Prop :=
  p.hasPeek = false ∧ ∀ c ∈ p.reader.range.text, isWhite c

/-- A layout of the tokens of a function is parsed to its tree. -/
theorem parserParseFunction_of_layout {f : FunctionText} (h : f.Valid) (hwithin : f.BlocksWithin 511)
    {ts : List Token} (hts : ts.map Token.asRead = f.tokens) (hless : ∀ t ∈ ts, ¬ t.IsLess)
    {text : Range} (htext : IsLayout ts text) {fuel : ℕ} (hfuel : 2 * ts.length ≤ fuel) :
    ∃ p', parserParseFunction readToken fuel (parserInit (readerOf text)) = .ok (f.ast, p') ∧
      TakenAll p' := by
  have hstart : (readerOf text).range.text = text := rfl
  obtain ⟨reader', hreads, hwhite⟩ := reads_layout htext hless hstart
  rw [hts] at hreads
  have hup : Upcoming readToken (parserInit (readerOf text)) (f.tokens ++ []) reader' := by
    rw [List.append_nil]
    exact hreads
  have hlength : ts.length = f.tokens.length := by rw [← hts, List.length_map]
  obtain ⟨p', hparse, hp'⟩ := parserParseFunction_text h hwithin (hlength ▸ hfuel) hup
  refine ⟨p', hparse, ?_⟩
  unfold Upcoming at hp'
  split at hp'
  · obtain ⟨ts', hts', -⟩ := hp'
    cases hts'
  · rename_i hpeek
    obtain rfl : p'.reader = reader' := hp'
    exact ⟨Bool.eq_false_iff.mpr hpeek, hwhite⟩

theorem functionText_ast (name : Range) (returnType : TokenType) {body : Statements}
    (h : body.Readable) :
    (functionText name returnType body).ast = functionAst name returnType body.asRead := by
  rw [FunctionText.ast, functionAst]
  exact congrArg (AstNode.function name returnType 0 [.block ·]) h.reads.nodes

/-- **Writing and parsing a function.**  A readable function can be written down, and on every
layout of its tokens the parser takes all of the text, returns the syntax tree of the
function, with `<` for `>` and `<=` for `>=`, and has stored its blocks in their buffers. -/
theorem parserParseFunction_layout {name : Range} {returnType : TokenType} {body : Statements}
    (htype : isDataType returnType) (hname : IsToken .ID name) (hbody : body.Readable)
    (hlength : body.length ≤ 16) :
    IsLayout (functionTokens name returnType body) (spaced (functionTokens name returnType body)) ∧
    ∀ text, IsLayout (functionTokens name returnType body) text →
      ∀ fuel, 2 * (functionTokens name returnType body).length ≤ fuel →
        ∃ p', parserParseFunction readToken fuel (parserInit (readerOf text)) =
            .ok (functionAst name returnType body.asRead, p') ∧ TakenAll p' ∧
          (functionAst name returnType body.asRead).BlocksStored := by
  have hreadable := functionTokens_readable htype hname hbody
  have hreads := hbody.reads
  have hwithin : (functionText name returnType body).BlocksWithin 16 :=
    ⟨(body.list_length hbody).trans_le hlength, hreads.within⟩
  have hvalid : (functionText name returnType body).Valid :=
    ⟨htype, fun hnone => absurd hnone (Option.some_ne_none _), hreads.valid⟩
  refine ⟨isLayout_spaced fun t ht => (hreadable t ht).1, fun text htext fuel hfuel => ?_⟩
  obtain ⟨p', hparse, htaken⟩ := parserParseFunction_of_layout hvalid (hwithin.mono (by decide))
    (functionText_tokens htype hbody) (fun t ht => (hreadable t ht).2) htext hfuel
  rw [functionText_ast name returnType hbody] at hparse
  refine ⟨p', hparse, htaken, ?_⟩
  rw [← functionText_ast name returnType hbody]
  exact (functionText name returnType body).ast_blocksStored.mpr hwithin

/-- The program of `tests/ssa_test.c`. -/
def fib : Statements :=
  .declare .KW_INT64 .ASSIGN [110, 117, 109] (.number 100)
    (.declare .KW_INT64 .ASSIGN [97] (.number 1)
      (.declare .KW_INT64 .ASSIGN [98] (.number 0)
        (.whileDo (.binary .greater (.var [110, 117, 109]) (.number 0))
          (.assign [110, 117, 109] (.binary .sub (.var [110, 117, 109]) (.number 1))
            (.declare .KW_INT64 .ASSIGN [111] (.var [98])
              (.assign [98] (.var [97])
                (.assign [97] (.binary .add (.var [97]) (.var [111])) .done))))
          (.ret .done))))

/-- The theorem at this program, whose condition `num > 0` is read as `num < 0`. -/
theorem parserParseFunction_layout_fib : ∃ p',
    parserParseFunction readToken 104
        (parserInit (readerOf (spaced (functionTokens [102, 105, 98] .KW_VOID fib)))) =
      .ok (functionAst [102, 105, 98] .KW_VOID fib.asRead, p') ∧ TakenAll p' := by
  have htype : isDataType .KW_VOID := by decide
  have hname : IsToken .ID [102, 105, 98] := by decide
  have hbody : fib.Readable := by decide
  have hlength : fib.length ≤ 16 := by decide
  obtain ⟨hlayout, hparse⟩ := parserParseFunction_layout htype hname hbody hlength
  have hfuel : 2 * (functionTokens [102, 105, 98] .KW_VOID fib).length ≤ 104 := by decide
  obtain ⟨p', hp', htaken, -⟩ := hparse _ hlayout 104 hfuel
  exact ⟨p', hp', htaken⟩

/-! ## From a text to SSA form -/

/-- What `tests/ssa_test.c` does, with the conversion within its buffers: it parses a function and
converts it. -/
def compileText (text : Range) (fuel : ℕ) : Option (Ir × ℕ) :=
  match parserParseFunction readToken fuel (parserInit (readerOf text)) with
  | .ok (node, _) => convertFunctionStored (irCreatorInit irContextInit) node fuel
  | .error _ => none

/-- **From a text to SSA form.**  Let a text be a layout of the tokens of a function whose tree has
structured, well-scoped statements, with at most 16 in a block, of which at most 249 blocks besides
the entry can be reached and no block goes on behind a jump.  Then `compileText` ends within its
buffers if and only if the created function fits those of the conversion, and the SSA form executes
these statements. -/
theorem compileText_executes {text : Range} {ts : List Token} (htext : IsLayout ts text)
    (hless : ∀ t ∈ ts, ¬ t.IsLess) {f : FunctionText} (hts : ts.map Token.asRead = f.tokens)
    (hvalid : f.Valid) (hwithin : f.BlocksWithin 16) {body : Statements}
    (hbody : f.body.nodes = body.toAst) (hscoped : body.WellScoped [fun _ => none] 0)
    (hregs : body.declarations ≤ 2 ^ 32) (hblocks : body.liveBlocks ≤ 249)
    (hmemory : 8 * (1 + body.blockCount) < 2 ^ 64) (hend : body.ending ≠ .broken) :
    f.ast.BlocksStored ∧ ∃ ir entry doms df ir',
      FunctionConverted (irCreatorInit irContextInit) f.ast ir entry doms df ir' ∧
      (body.liveBlocks ≤ 124 →
        (body.code (fun _ => none) [[]] 0).countP InstType.isLoadAssign + body.liveBlocks ≤ 249 →
          ConversionFits ir entry doms df) ∧
      ((∃ bound, ∀ fuel, bound ≤ fuel → compileText text fuel = some (ir', entry)) ↔
        ConversionFits ir entry doms df) ∧
      ExecutesSource ir ir' entry doms body 0 := by
  have hinfo : (irCreatorInit irContextInit).blockInfo = [] := rfl
  have hast : f.ast = functionAst f.name f.dataType.type body := by
    rw [FunctionText.ast, functionAst, hbody]
  have hregs' : (irCreatorInit irContextInit).regCount + body.declarations ≤ 2 ^ 32 := by
    rwa [show (irCreatorInit irContextInit).regCount = 0 from rfl, Nat.zero_add]
  have hmemory' : 8 * ((irCreatorInit irContextInit).ctx.blockCount + 1 + body.blockCount) < 2 ^ 64 := by
    rwa [show (irCreatorInit irContextInit).ctx.blockCount = 0 from rfl, Nat.zero_add]
  obtain ⟨inner, doms, df, ir', hinner, h⟩ := exists_functionConverted heapClosed_irContextInit hinfo
    f.name f.dataType.type hscoped hblocks hmemory'
  have hexec := h.executesSource heapClosed_irContextInit hinfo hinner hscoped hregs' hend
  have hstored := h.stored_iff (created_heap heapClosed_irContextInit hinner).toHeapOk
    (created_ssaFunction heapClosed_irContextInit hinner hinfo hregs')
  refine ⟨f.ast_blocksStored.mpr hwithin, _, _, doms, df, ir', hast ▸ h,
    created_conversionFits heapClosed_irContextInit hinner hinfo h.correctDoms h.correctFrontiers,
    ?_, hexec⟩
  -- with enough steps the parser returns the tree of the function
  have hchain : ∀ fuel, 2 * ts.length ≤ fuel → compileText text fuel = convertFunctionStored
      (irCreatorInit irContextInit) (functionAst f.name f.dataType.type body) fuel := by
    intro fuel hfuel
    obtain ⟨p', hparse, -⟩ := parserParseFunction_of_layout hvalid (hwithin.mono (by decide)) hts
      hless htext hfuel
    rw [compileText, hparse, hast]
  rw [← hstored]
  constructor
  · rintro ⟨bound, hall⟩
    refine ⟨max bound (2 * ts.length), fun fuel hfuel => ?_⟩
    rw [← hchain fuel ((Nat.le_max_right _ _).trans hfuel)]
    exact hall fuel ((Nat.le_max_left _ _).trans hfuel)
  · rintro ⟨bound, hall⟩
    refine ⟨max bound (2 * ts.length), fun fuel hfuel => ?_⟩
    rw [hchain fuel ((Nat.le_max_right _ _).trans hfuel)]
    exact hall fuel ((Nat.le_max_left _ _).trans hfuel)

/-- The theorem at `void f() { int64 a = 1; while (a) { a = a - 1; } }`. -/
theorem compileText_executes_countLoop : ∃ bound ir entry ir',
    (∀ fuel, bound ≤ fuel →
      compileText (spaced (functionTokens [102] .KW_VOID countLoop)) fuel = some (ir', entry)) ∧
    ∀ (V : Type) (sem : ValueSemantics V) (vars : ℕ → V), SameExecution sem ir ir' entry ∧
      ((∃ w b, Executes sem ir' entry w b ∧ EndsBehind sem ir' w b) ↔
        ∃ fuel, (countLoop.interpret sem 0 vars fuel).1 ≠ .cut) := by
  have htype : isDataType .KW_VOID := by decide
  have hname : IsToken .ID [102] := by decide
  have hbody : countLoop.Readable := by decide
  have hreadable := functionTokens_readable htype hname hbody
  have hreads := hbody.reads
  have hvalid : (functionText [102] .KW_VOID countLoop).Valid :=
    ⟨htype, fun hnone => absurd hnone (Option.some_ne_none _), hreads.valid⟩
  have hwithin : (functionText [102] .KW_VOID countLoop).BlocksWithin 16 := by
    refine ⟨?_, hreads.within⟩
    show countLoop.list.length ≤ 16
    rw [countLoop.list_length hbody]
    decide
  have hnodes : (functionText [102] .KW_VOID countLoop).body.nodes = countLoop.toAst := hreads.nodes
  have hscoped : countLoop.WellScoped [fun _ => none] 0 := by decide
  have hregs : countLoop.declarations ≤ 2 ^ 32 := by decide
  have hblocks : countLoop.liveBlocks ≤ 249 := by decide
  have hmemory : 8 * (1 + countLoop.blockCount) < 2 ^ 64 := by decide
  have hend : countLoop.ending ≠ .broken := by decide
  obtain ⟨-, ir, entry, doms, df, ir', h, hfits, hstored, hexec⟩ :=
    compileText_executes (isLayout_spaced fun t ht => (hreadable t ht).1)
      (fun t ht => (hreadable t ht).2) (functionText_tokens htype hbody) hvalid hwithin hnodes
      hscoped hregs hblocks hmemory hend
  obtain ⟨bound, hcompile⟩ := hstored.mpr (hfits (by decide) (by decide))
  obtain ⟨creator', hcreate, rfl⟩ := h.created
  rw [functionText_ast [102] .KW_VOID hbody] at hcreate
  refine ⟨bound, creator'.ctx, entry, ir', hcompile, fun V sem vars => ?_⟩
  exact (hexec V sem vars vars).2.2 (firstPhisSuffice_countLoop doms hcreate)
