/-
# What the parser takes for a function

The statements of a function as the parser takes them from the tokens.  A declaration may
have any token for its name and for its `=`, since `parser_parseDeclaration` assigns the
type of the name instead of comparing it and `parser_parseAssignment` takes the next token
unseen.

* `parserParseFunction_text` : on the tokens of a function the parser returns
  `FunctionText.ast`;
* `exists_functionText` : whenever it returns a function, it has taken the tokens of one.
-/
import MCompiler.ParserErrors
import MCompiler.ParserStatements

/-! ## Functions as they are written -/

/-- The tokens around the statements of a block, which may be a single statement. -/
abbrev Braces := Option (Range × Range)

/-- The tokens of a block. -/
def blockTokens : Braces → List Token → List Token
  | none, ts => ts
  | some (opening, closing), ts =>
      ⟨.CURLY_OPEN, opening⟩ :: (ts ++ [⟨.CURLY_CLOSE, closing⟩])

/-- An expression of a statement: the parser takes all its tokens and returns a tree. -/
def Phrase.IsExpression (e : Phrase) : Prop := e.Valid false ∧ e.Returns ∧ ¬ e.IsMissing

/-- Statements, each with those after it.  `conditional` is an `if` or a `while`. -/
inductive StatementList where
  | done
  | declaration (dataType name assign : Token) (e : Phrase) (semicolon : Range)
      (rest : StatementList)
  | assignment (name assign : Range) (e : Phrase) (semicolon : Range) (rest : StatementList)
  | conditional (keyword : Token) (opening : Range) (condition : Phrase) (closing : Range)
      (braces : Braces) (body rest : StatementList)
  | «return» (keyword semicolon : Range) (rest : StatementList)

namespace StatementList

/-- The tokens of statements. -/
def tokens : StatementList → List Token
  | done => []
  | declaration dataType name assign e semicolon rest =>
      dataType :: name :: assign :: (e.tokens ++ ⟨.SEMI_COLON, semicolon⟩ :: rest.tokens)
  | assignment name assign e semicolon rest =>
      ⟨.ID, name⟩ :: ⟨.ASSIGN, assign⟩ ::
        (e.tokens ++ ⟨.SEMI_COLON, semicolon⟩ :: rest.tokens)
  | conditional keyword opening condition closing braces body rest =>
      keyword :: ⟨.PARAN_OPEN, opening⟩ ::
        (condition.tokens ++ ⟨.PARAN_CLOSE, closing⟩ ::
          (blockTokens braces body.tokens ++ rest.tokens))
  | «return» keyword semicolon rest =>
      ⟨.KW_RETURN, keyword⟩ :: ⟨.SEMI_COLON, semicolon⟩ :: rest.tokens

/-- The number of statements, those in blocks inside not counted. -/
def length : StatementList → ℕ
  | done => 0
  | declaration _ _ _ _ _ rest => rest.length + 1
  | assignment _ _ _ _ rest => rest.length + 1
  | conditional _ _ _ _ _ _ rest => rest.length + 1
  | «return» _ _ rest => rest.length + 1

/-- The node of an assignment. -/
def assignNode (name : Range) (e : Phrase) : AstNode :=
  .binaryExp .ASSIGN (.variable name false) e.parsed false

/-- The nodes of statements, one for each in the order of the source. -/
def nodes : StatementList → List AstNode
  | done => []
  | declaration dataType name _ e _ rest =>
      .declaration dataType.type (assignNode name.range e) :: rest.nodes
  | assignment name _ e _ rest => assignNode name e :: rest.nodes
  | conditional keyword _ condition _ _ body rest =>
      (if keyword.type = .KW_IF then .if condition.parsed (.block body.nodes)
        else .while condition.parsed (.block body.nodes)) :: rest.nodes
  | «return» _ _ rest => .return :: rest.nodes

theorem nodes_length (ss : StatementList) : ss.nodes.length = ss.length := by
  induction ss with
  | done => rfl
  | declaration dataType name assign e semicolon rest ih => exact congrArg (· + 1) ih
  | assignment name assign e semicolon rest ih => exact congrArg (· + 1) ih
  | conditional keyword opening condition closing braces body rest _ ih =>
      exact congrArg (· + 1) ih
  | «return» keyword semicolon rest ih => exact congrArg (· + 1) ih

/-- The statements of which the parser takes all tokens. -/
def Valid : StatementList → Prop
  | done => True
  | declaration dataType _ _ e _ rest =>
      isDataType dataType.type = true ∧ e.IsExpression ∧ rest.Valid
  | assignment _ _ e _ rest => e.IsExpression ∧ rest.Valid
  | conditional keyword _ condition _ braces body rest =>
      (keyword.type = .KW_IF ∨ keyword.type = .KW_WHILE) ∧ condition.IsExpression ∧
        (braces = none → body.length = 1) ∧ body.Valid ∧ rest.Valid
  | «return» _ _ rest => rest.Valid

/-- No block has more than `n` statements. -/
def BlocksWithin (n : ℕ) : StatementList → Prop
  | done => True
  | declaration _ _ _ _ _ rest => rest.BlocksWithin n
  | assignment _ _ _ _ rest => rest.BlocksWithin n
  | conditional _ _ _ _ _ body rest =>
      body.length ≤ n ∧ body.BlocksWithin n ∧ rest.BlocksWithin n
  | «return» _ _ rest => rest.BlocksWithin n

/-- The statements of the grammar: every declaration has an identifier and a `=`, and all
expressions are complete. -/
def Strict : StatementList → Prop
  | done => True
  | declaration _ name assign e _ rest =>
      name.type = .ID ∧ assign.type = .ASSIGN ∧ e.Complete ∧ rest.Strict
  | assignment _ _ e _ rest => e.Complete ∧ rest.Strict
  | conditional _ _ condition _ _ body rest => condition.Complete ∧ body.Strict ∧ rest.Strict
  | «return» _ _ rest => rest.Strict

end StatementList

/-- A function as it is written. -/
structure FunctionText where
  dataType : Token
  name : Range
  opening : Range
  closing : Range
  braces : Braces
  body : StatementList

namespace FunctionText

/-- The tokens of a function. -/
def tokens (f : FunctionText) : List Token :=
  f.dataType :: ⟨.ID, f.name⟩ :: ⟨.PARAN_OPEN, f.opening⟩ :: ⟨.PARAN_CLOSE, f.closing⟩ ::
    blockTokens f.braces f.body.tokens

/-- The syntax tree of a function. -/
def ast (f : FunctionText) : AstNode :=
  .function f.name f.dataType.type 0 [.block f.body.nodes]

/-- The functions of which the parser takes all tokens. -/
def Valid (f : FunctionText) : Prop :=
  isDataType f.dataType.type = true ∧ (f.braces = none → f.body.length = 1) ∧ f.body.Valid

/-- No block has more than `n` statements. -/
def BlocksWithin (n : ℕ) (f : FunctionText) : Prop :=
  f.body.length ≤ n ∧ f.body.BlocksWithin n

/-- **The grammar.**  `Function := DataType ID ( ) Block`, where
`Block := { Stmt* } | Stmt` and
`Stmt := DataType ID = Expr ; | ID = Expr ; | if ( Expr ) Block | while ( Expr ) Block | return ;`
with complete phrases for `Expr`. -/
def InGrammar (f : FunctionText) : Prop := f.Valid ∧ f.body.Strict

end FunctionText

/-! ## Reading a function -/

section Reading

variable {R : Type} {tokenNext : R → Token × R}

theorem parserExpect_next {p : Parser R} {t : Token} {ts : List Token} {r' : R}
    (h : Upcoming tokenNext p (t :: ts) r') (error : String)
    (next : Parser R → Except Stop (AstNode × Parser R)) :
    ∃ p', parserExpect tokenNext p t.type error next = next p' ∧ Upcoming tokenNext p' ts r' := by
  obtain ⟨p₁, hnext, hp₁, -⟩ := h.next
  refine ⟨p₁, ?_, hp₁⟩
  rw [parserExpect, hnext]
  exact if_pos rfl

theorem Phrase.IsExpression.parses {e : Phrase} (h : e.IsExpression) {fuel : ℕ}
    (hfuel : 2 * e.tokens.length + 1 ≤ fuel) {p : Parser R} {stop : Token}
    (hstop : getPresedence stop.type = -1) {ts : List Token} {r' : R}
    (hp : Upcoming tokenNext p (e.tokens ++ stop :: ts) r') :
    ∃ p', parserParseExpression tokenNext fuel p = .ok (e.parsed, p') ∧
      Upcoming tokenNext p' (stop :: ts) r' ∧ e.parsed.isNull = false := by
  obtain ⟨hvalid, hreturns, hthere⟩ := h
  obtain ⟨p', hparse, hp', -⟩ :=
    parserParseExpression_phrase hvalid hreturns fuel hfuel p stop (.inr hstop) ts r' hp
  exact ⟨p', hparse, hp', Bool.eq_false_iff.mpr (mt hvalid.parsed_isNull.mp hthere)⟩

theorem parserParseAssignment_reads {e : Phrase} (h : e.IsExpression) {fuel : ℕ}
    (hfuel : 2 * e.tokens.length + 1 ≤ fuel) {p : Parser R} {assign stop : Token}
    (hstop : getPresedence stop.type = -1) {ts : List Token} {r' : R} (name : Range)
    (hp : Upcoming tokenNext p (assign :: (e.tokens ++ stop :: ts)) r') :
    ∃ p', parserParseAssignment tokenNext fuel p name =
        .ok (StatementList.assignNode name e, p') ∧ Upcoming tokenNext p' (stop :: ts) r' := by
  obtain ⟨p₁, hnext, hp₁, -⟩ := hp.next
  obtain ⟨p₂, hparse, hp₂, hthere⟩ := h.parses hfuel hstop hp₁
  refine ⟨p₂, ?_, hp₂⟩
  rw [parserParseAssignment, hnext]
  dsimp only
  rw [hparse, ok_bind]
  dsimp only
  rw [hthere]
  rfl

/-- One statement: `parser_parseStatement` takes its tokens and returns its node. -/
structure ReadsStatement (tokenNext : R → Token × R) (stmt : List Token) (node : AstNode) :
    Prop where
  there : node.isNull = false
  head : ∃ t rest, stmt = t :: rest ∧ t.type ≠ .EEOF ∧ t.type ≠ .CURLY_OPEN ∧
    t.type ≠ .CURLY_CLOSE
  reads : ∀ (fuel : ℕ) (p : Parser R) (ts : List Token) (r' : R), 2 * stmt.length + 1 ≤ fuel →
    Upcoming tokenNext p (stmt ++ ts) r' →
      ∃ p', parserParseStatement tokenNext fuel p = .ok (node, p') ∧ Upcoming tokenNext p' ts r'

theorem reads_declaration {dataType : Token} {e : Phrase} (name assign : Token)
    (semicolon : Range) (htype : isDataType dataType.type = true) (he : e.IsExpression) :
    ReadsStatement tokenNext
      (dataType :: name :: assign :: (e.tokens ++ [⟨.SEMI_COLON, semicolon⟩]))
      (.declaration dataType.type (StatementList.assignNode name.range e)) := by
  have hhead : dataType.type = .KW_VOID ∨ dataType.type = .KW_INT64 := by
    simpa [isDataType] using htype
  refine ⟨rfl, ⟨dataType, _, rfl, ?_⟩, fun fuel p ts r' hfuel hp => ?_⟩
  · rcases hhead with h | h <;> rw [h] <;> decide
  · obtain ⟨fuel, rfl⟩ : ∃ n, fuel = n + 1 := ⟨fuel - 1, by omega⟩
    simp only [List.cons_append, List.append_assoc, List.length_cons, List.length_append] at hfuel hp
    obtain ⟨p₁, hpeek, hp₁, -⟩ := hp.peekToken
    obtain ⟨p₂, hnext₂, hp₂, -⟩ := hp₁.next
    obtain ⟨p₃, hnext₃, hp₃, -⟩ := hp₂.next
    have hexp : 2 * e.tokens.length + 1 ≤ fuel := by omega
    obtain ⟨p₄, hassign, hp₄⟩ := parserParseAssignment_reads he hexp rfl name.range hp₃
    obtain ⟨p₅, hexpect, hp₅⟩ := parserExpect_next hp₄ "expected semicolon after statement"
      fun p => .ok (.declaration dataType.type (StatementList.assignNode name.range e), p)
    refine ⟨p₅, ?_, hp₅⟩
    rw [parserParseStatement, hpeek]
    dsimp only
    rw [if_pos htype, parserParseDeclaration, hnext₂]
    dsimp only
    rw [if_pos htype, hnext₃]
    dsimp only
    rw [hassign, ok_bind]
    exact hexpect

theorem reads_assignment {e : Phrase} (name assign semicolon : Range) (he : e.IsExpression) :
    ReadsStatement tokenNext
      (⟨.ID, name⟩ :: ⟨.ASSIGN, assign⟩ :: (e.tokens ++ [⟨.SEMI_COLON, semicolon⟩]))
      (StatementList.assignNode name e) := by
  refine ⟨rfl, ⟨⟨.ID, name⟩, _, rfl, by simp⟩, fun fuel p ts r' hfuel hp => ?_⟩
  obtain ⟨fuel, rfl⟩ : ∃ n, fuel = n + 1 := ⟨fuel - 1, by omega⟩
  simp only [List.cons_append, List.append_assoc, List.length_cons, List.length_append] at hfuel hp
  obtain ⟨p₁, hpeek, hp₁, -⟩ := hp.peekToken
  obtain ⟨p₂, hnext₂, hp₂, -⟩ := hp₁.next
  obtain ⟨p₃, hpeek₃, hp₃, -⟩ := hp₂.peekToken
  have hexp : 2 * e.tokens.length + 1 ≤ fuel := by omega
  obtain ⟨p₄, hassign, hp₄⟩ := parserParseAssignment_reads he hexp rfl name hp₃
  obtain ⟨p₅, hexpect, hp₅⟩ := parserExpect_next hp₄ "expected semicolon after statement"
    fun p => .ok (StatementList.assignNode name e, p)
  refine ⟨p₅, ?_, hp₅⟩
  rw [parserParseStatement, hpeek]
  show parserParseAssignmentOrCall tokenNext fuel p₁ = _
  rw [parserParseAssignmentOrCall, hnext₂]
  dsimp only
  rw [if_pos rfl, hpeek₃]
  dsimp only
  rw [if_pos rfl, hassign, ok_bind]
  exact hexpect

theorem reads_return (keyword semicolon : Range) :
    ReadsStatement tokenNext [⟨.KW_RETURN, keyword⟩, ⟨.SEMI_COLON, semicolon⟩] .return := by
  refine ⟨rfl, ⟨⟨.KW_RETURN, keyword⟩, _, rfl, by simp⟩, fun fuel p ts r' hfuel hp => ?_⟩
  obtain ⟨fuel, rfl⟩ : ∃ n, fuel = n + 1 := ⟨fuel - 1, by omega⟩
  obtain ⟨p₁, hpeek, hp₁, -⟩ := Upcoming.peekToken hp
  obtain ⟨p₂, hnext₂, hp₂, -⟩ := hp₁.next
  obtain ⟨p₃, hexpect, hp₃⟩ := parserExpect_next hp₂ "expected semicolon after statement"
    fun p => .ok (.return, p)
  refine ⟨p₃, ?_, hp₃⟩
  rw [parserParseStatement, hpeek]
  show parserParseReturn tokenNext p₁ = _
  rw [parserParseReturn, hnext₂]
  exact hexpect

/-- A block: `parser_parseBlock` takes its tokens and returns its node. -/
def ReadsBlock (tokenNext : R → Token × R) (block : List Token) (nodes : List AstNode) : Prop :=
  ∀ (fuel : ℕ) (p : Parser R) (ts : List Token) (r' : R), 2 * block.length + 3 ≤ fuel →
    Upcoming tokenNext p (block ++ ts) r' →
      ∃ p', parserParseBlock tokenNext fuel p = .ok (.block nodes, p') ∧
        Upcoming tokenNext p' ts r'

/-- The statements of a block with its closing brace, which is left. -/
def ReadsLoop (tokenNext : R → Token × R) (stmts : List Token) (nodes : List AstNode) : Prop :=
  ∀ (fuel : ℕ) (p : Parser R) (statements : List AstNode) (closing : Range) (ts : List Token)
    (r' : R), 2 * stmts.length + 2 ≤ fuel →
    Upcoming tokenNext p (stmts ++ ⟨.CURLY_CLOSE, closing⟩ :: ts) r' →
      ∃ p', parserBlockLoop tokenNext fuel p statements = .ok (some (statements ++ nodes), p') ∧
        Upcoming tokenNext p' (⟨.CURLY_CLOSE, closing⟩ :: ts) r'

theorem parserParseCondition_reads {e : Phrase} (h : e.IsExpression) {fuel : ℕ}
    (hfuel : 2 * e.tokens.length + 1 ≤ fuel) {p : Parser R} {keyword : Token}
    {opening closing : Range} {ts : List Token} {r' : R}
    (hp : Upcoming tokenNext p (keyword :: ⟨.PARAN_OPEN, opening⟩ ::
      (e.tokens ++ ⟨.PARAN_CLOSE, closing⟩ :: ts)) r')
    (next : AstNode → Parser R → Except Stop (AstNode × Parser R)) :
    ∃ p', parserParseCondition tokenNext fuel p next = next e.parsed p' ∧
      Upcoming tokenNext p' ts r' := by
  obtain ⟨p₁, hnext₁, hp₁, -⟩ := hp.next
  obtain ⟨p₂, hnext₂, hp₂, -⟩ := hp₁.next
  obtain ⟨p₃, hparse, hp₃, hthere⟩ := h.parses hfuel rfl hp₂
  obtain ⟨p₄, hexpect, hp₄⟩ := parserExpect_next hp₃
    "Expected parenthesis close, while trying to parse function" (next e.parsed)
  refine ⟨p₄, ?_, hp₄⟩
  rw [parserParseCondition, hnext₁]
  dsimp only
  rw [parserExpect, hnext₂]
  dsimp only
  rw [if_pos rfl, hparse, ok_bind]
  dsimp only
  rw [hthere]
  exact hexpect

/-- The head and the block of an `if` or a `while`. -/
theorem parserParseCondition_block (f : AstNode → AstNode → AstNode) {e : Phrase}
    (he : e.IsExpression) {block : List Token} {nodes : List AstNode}
    (hblock : ReadsBlock tokenNext block nodes) {fuel : ℕ} (hexp : 2 * e.tokens.length + 1 ≤ fuel)
    (hfuel : 2 * block.length + 3 ≤ fuel) {p : Parser R} {keyword : Token}
    {opening closing : Range} {ts : List Token} {r' : R}
    (hp : Upcoming tokenNext p (keyword :: ⟨.PARAN_OPEN, opening⟩ ::
      (e.tokens ++ ⟨.PARAN_CLOSE, closing⟩ :: (block ++ ts))) r') :
    ∃ p', parserParseCondition tokenNext fuel p (fun condition p => do
        let (block, p) ← parserParseBlock tokenNext fuel p
        if block.isNull then .ok (.null, p) else .ok (f condition block, p)) =
          .ok (f e.parsed (.block nodes), p') ∧ Upcoming tokenNext p' ts r' := by
  obtain ⟨p₁, hcond, hp₁⟩ := parserParseCondition_reads he hexp hp _
  obtain ⟨p₂, hparse, hp₂⟩ := hblock fuel p₁ ts r' hfuel hp₁
  refine ⟨p₂, ?_, hp₂⟩
  rw [hcond, hparse]
  rfl

theorem reads_conditional {keyword : Token} {condition : Phrase} {block : List Token}
    {nodes : List AstNode} (opening closing : Range)
    (hkeyword : keyword.type = .KW_IF ∨ keyword.type = .KW_WHILE)
    (he : condition.IsExpression) (hblock : ReadsBlock tokenNext block nodes) :
    ReadsStatement tokenNext
      (keyword :: ⟨.PARAN_OPEN, opening⟩ ::
        (condition.tokens ++ ⟨.PARAN_CLOSE, closing⟩ :: block))
      (if keyword.type = .KW_IF then .if condition.parsed (.block nodes)
        else .while condition.parsed (.block nodes)) := by
  refine ⟨?_, ⟨keyword, _, rfl, ?_⟩, fun fuel p ts r' hfuel hp => ?_⟩
  · split <;> rfl
  · rcases hkeyword with h | h <;> rw [h] <;> decide
  · obtain ⟨fuel, rfl⟩ : ∃ n, fuel = n + 2 :=
      ⟨fuel - 2, by simp only [List.length_cons] at hfuel; omega⟩
    simp only [List.cons_append, List.append_assoc, List.length_cons, List.length_append]
      at hfuel hp
    obtain ⟨p₁, hpeek, hp₁, -⟩ := hp.peekToken
    have hexp : 2 * condition.tokens.length + 1 ≤ fuel := by omega
    have hread := fun f => parserParseCondition_block f he hblock hexp (by omega) hp₁
    rcases hkeyword with h | h
    · obtain ⟨p', hparse, hp'⟩ := hread .if
      refine ⟨p', ?_, hp'⟩
      rw [parserParseStatement, hpeek, if_pos h]
      simp only [h]
      show parserParseIf tokenNext (fuel + 1) p₁ = _
      rw [parserParseIf]
      exact hparse
    · obtain ⟨p', hparse, hp'⟩ := hread .while
      refine ⟨p', ?_, hp'⟩
      rw [parserParseStatement, hpeek, if_neg (by rw [h]; decide)]
      simp only [h]
      show parserParseWhile tokenNext (fuel + 1) p₁ = _
      rw [parserParseWhile]
      exact hparse

theorem readsLoop_nil : ReadsLoop tokenNext [] [] := by
  intro fuel p statements closing ts r' hfuel hp
  obtain ⟨fuel, rfl⟩ : ∃ n, fuel = n + 1 := ⟨fuel - 1, by omega⟩
  obtain ⟨p₁, hpeek, hp₁, -⟩ := Upcoming.peekToken hp
  refine ⟨p₁, ?_, hp₁⟩
  rw [parserBlockLoop, hpeek, List.append_nil]
  rfl

/-- A pass of the loop. -/
theorem readsLoop_cons {stmt stmts : List Token} {node : AstNode} {nodes : List AstNode}
    (h : ReadsStatement tokenNext stmt node) (hrest : ReadsLoop tokenNext stmts nodes) :
    ReadsLoop tokenNext (stmt ++ stmts) (node :: nodes) := by
  intro fuel p statements closing ts r' hfuel hp
  obtain ⟨fuel, rfl⟩ : ∃ n, fuel = n + 1 := ⟨fuel - 1, by omega⟩
  obtain ⟨t, rest, hstmt, heof, -, hclose⟩ := h.head
  have hpos : 0 < stmt.length := by
    rw [hstmt]
    exact Nat.succ_pos _
  rw [List.length_append] at hfuel
  rw [List.append_assoc] at hp
  have hp' : Upcoming tokenNext p (t :: (rest ++ (stmts ++ ⟨.CURLY_CLOSE, closing⟩ :: ts))) r' := by
    rw [hstmt] at hp
    exact hp
  obtain ⟨p₁, hpeek, hp₁, -⟩ := hp'.peekToken
  obtain ⟨p₂, hparse, hp₂⟩ := h.reads fuel p₁ _ r' (by omega) (by rw [hstmt]; exact hp₁)
  obtain ⟨p₃, hloop, hp₃⟩ := hrest fuel p₂ (statements ++ [node]) closing ts r' (by omega) hp₂
  refine ⟨p₃, ?_, hp₃⟩
  rw [parserBlockLoop, hpeek]
  dsimp only
  rw [if_neg heof, if_neg hclose, hparse, ok_bind]
  dsimp only
  rw [h.there, List.append_cons statements node nodes]
  exact hloop

theorem zoneAlloc_of_le {n : ℕ} (h : n ≤ 511) : zoneAlloc (8 * n) = .ok () := by
  have hmax : maxZoneAllocation = 4088 := rfl
  exact if_pos (by omega)

theorem reads_bracedBlock {stmts : List Token} {nodes : List AstNode}
    (h : ReadsLoop tokenNext stmts nodes) (hlength : nodes.length ≤ 511)
    (opening closing : Range) :
    ReadsBlock tokenNext (blockTokens (some (opening, closing)) stmts) nodes := by
  intro fuel p ts r' hfuel hp
  simp only [blockTokens, List.cons_append, List.append_assoc, List.length_cons,
    List.length_append, List.nil_append] at hfuel hp
  obtain ⟨fuel, rfl⟩ : ∃ n, fuel = n + 1 := ⟨fuel - 1, by omega⟩
  obtain ⟨p₁, hpeek, hp₁, -⟩ := hp.peekToken
  obtain ⟨p₂, hnext₂, hp₂, -⟩ := hp₁.next
  obtain ⟨p₃, hloop, hp₃⟩ := h fuel p₂ [] closing ts r' (by omega) hp₂
  obtain ⟨p₄, hnext₄, hp₄, -⟩ := hp₃.next
  refine ⟨p₄, ?_, hp₄⟩
  rw [parserParseBlock, hpeek]
  dsimp only
  rw [if_pos rfl, hnext₂]
  dsimp only
  rw [hloop, ok_bind]
  dsimp only
  rw [hnext₄, List.nil_append]
  dsimp only
  rw [zoneAlloc_of_le hlength]
  rfl

theorem reads_singleBlock {stmt : List Token} {node : AstNode}
    (h : ReadsStatement tokenNext stmt node) :
    ReadsBlock tokenNext (blockTokens none stmt) [node] := by
  intro fuel p ts r' hfuel hp
  simp only [blockTokens] at hfuel hp
  obtain ⟨fuel, rfl⟩ : ∃ n, fuel = n + 1 := ⟨fuel - 1, by omega⟩
  obtain ⟨t, rest, hstmt, -, hopen, -⟩ := h.head
  have hp' : Upcoming tokenNext p (t :: (rest ++ ts)) r' := by
    rw [hstmt] at hp
    exact hp
  obtain ⟨p₁, hpeek, hp₁, -⟩ := hp'.peekToken
  obtain ⟨p₂, hparse, hp₂⟩ := h.reads fuel p₁ ts r' (by omega) (by rw [hstmt]; exact hp₁)
  refine ⟨p₂, ?_, hp₂⟩
  rw [parserParseBlock, hpeek]
  dsimp only
  rw [if_neg hopen, hparse, ok_bind]
  dsimp only
  rw [h.there]
  rfl

namespace StatementList

/-- The statements are read in a loop, and a single one by itself. -/
def IsRead (tokenNext : R → Token × R) (ss : StatementList) : Prop :=
  ReadsLoop tokenNext ss.tokens ss.nodes ∧
    (ss.length = 1 → ∃ node, ss.nodes = [node] ∧ ReadsStatement tokenNext ss.tokens node)

theorem eq_done_of_length {ss : StatementList} (h : ss.length = 0) : ss = done := by
  cases ss with
  | done => rfl
  | _ => cases h

/-- Statements are read if the first one is and the others are. -/
theorem isRead_cons {ss rest : StatementList} {stmt : List Token} {node : AstNode}
    (h : ReadsStatement tokenNext stmt node) (hrest : rest.IsRead tokenNext)
    (htokens : ss.tokens = stmt ++ rest.tokens) (hnodes : ss.nodes = node :: rest.nodes)
    (hlength : ss.length = rest.length + 1) : ss.IsRead tokenNext := by
  refine ⟨?_, fun hone => ⟨node, ?_⟩⟩
  · rw [htokens, hnodes]
    exact readsLoop_cons h hrest.1
  · obtain rfl : rest = done := eq_done_of_length (by omega)
    rw [htokens, hnodes, tokens, List.append_nil]
    exact ⟨rfl, h⟩

theorem IsRead.block {body : StatementList} (h : body.IsRead tokenNext) {braces : Braces}
    (hsingle : braces = none → body.length = 1) (hlength : body.length ≤ 511) :
    ReadsBlock tokenNext (blockTokens braces body.tokens) body.nodes := by
  cases braces with
  | none =>
      obtain ⟨node, hnodes, hread⟩ := h.2 (hsingle rfl)
      rw [hnodes]
      exact reads_singleBlock hread
  | some braces => exact reads_bracedBlock h.1 (by rwa [nodes_length]) braces.1 braces.2

/-- Statements whose blocks fit the zone are read, by induction on them. -/
theorem Valid.isRead {ss : StatementList} (h : ss.Valid) (hwithin : ss.BlocksWithin 511) :
    ss.IsRead tokenNext := by
  induction ss with
  | done => exact ⟨readsLoop_nil, fun hone => by cases hone⟩
  | declaration dataType name assign e semicolon rest ih =>
      refine isRead_cons (reads_declaration name assign semicolon h.1 h.2.1)
        (ih h.2.2 hwithin) ?_ rfl rfl
      simp only [tokens, List.cons_append, List.append_assoc, List.nil_append]
  | assignment name assign e semicolon rest ih =>
      refine isRead_cons (reads_assignment name assign semicolon h.1) (ih h.2 hwithin) ?_ rfl rfl
      simp only [tokens, List.cons_append, List.append_assoc, List.nil_append]
  | conditional keyword opening condition closing braces body rest ihbody ihrest =>
      obtain ⟨hkeyword, he, hsingle, hbody, hrest⟩ := h
      obtain ⟨hlength, hwithin', hwithin''⟩ := hwithin
      have hblock := (ihbody hbody hwithin').block hsingle hlength
      exact isRead_cons (reads_conditional opening closing hkeyword he hblock)
        (ihrest hrest hwithin'') (by simp [tokens]) rfl rfl
  | «return» keyword semicolon rest ih =>
      exact isRead_cons (reads_return keyword semicolon) (ih h hwithin) (by simp [tokens]) rfl rfl

end StatementList

/-- **What `parser_parseFunction` returns** for the tokens of a function whose blocks fit
the zone. -/
theorem parserParseFunction_text {f : FunctionText} (h : f.Valid) (hwithin : f.BlocksWithin 511)
    {fuel : ℕ} (hfuel : 2 * f.tokens.length ≤ fuel) {p : Parser R} {ts : List Token} {r' : R}
    (hp : Upcoming tokenNext p (f.tokens ++ ts) r') :
    ∃ p', parserParseFunction tokenNext fuel p = .ok (f.ast, p') ∧
      Upcoming tokenNext p' ts r' := by
  obtain ⟨htype, hsingle, hbody⟩ := h
  have hread : f.body.IsRead tokenNext := hbody.isRead hwithin.2
  have hblock := hread.block hsingle hwithin.1
  simp only [FunctionText.tokens, List.cons_append, List.length_cons] at hfuel hp
  obtain ⟨p₁, hnext₁, hp₁, -⟩ := hp.next
  obtain ⟨p₂, hnext₂, hp₂, -⟩ := hp₁.next
  obtain ⟨p₃, hnext₃, hp₃, -⟩ := hp₂.next
  obtain ⟨p₄, hnext₄, hp₄, -⟩ := hp₃.next
  obtain ⟨p₅, hparse, hp₅⟩ := hblock fuel p₄ ts r' (by omega) hp₄
  refine ⟨p₅, ?_, hp₅⟩
  rw [parserParseFunction, hnext₁]
  dsimp only
  rw [if_pos htype, hnext₂]
  dsimp only
  rw [if_pos rfl, parserExpect, hnext₃]
  dsimp only
  rw [if_pos rfl, parserExpect, hnext₄]
  dsimp only
  rw [if_pos rfl, hparse, ok_bind]
  rfl

end Reading

/-! ## What has been taken is a function -/

namespace StatementList

/-- The statements of `ss` and then those of `ss'`. -/
def append : StatementList → StatementList → StatementList
  | done, ss' => ss'
  | declaration dataType name assign e semicolon rest, ss' =>
      declaration dataType name assign e semicolon (rest.append ss')
  | assignment name assign e semicolon rest, ss' =>
      assignment name assign e semicolon (rest.append ss')
  | conditional keyword opening condition closing braces body rest, ss' =>
      conditional keyword opening condition closing braces body (rest.append ss')
  | «return» keyword semicolon rest, ss' => «return» keyword semicolon (rest.append ss')

theorem tokens_append (ss ss' : StatementList) :
    (ss.append ss').tokens = ss.tokens ++ ss'.tokens := by
  induction ss with
  | done => rfl
  | declaration dataType name assign e semicolon rest ih => simp [append, tokens, ih]
  | assignment name assign e semicolon rest ih => simp [append, tokens, ih]
  | conditional keyword opening condition closing braces body rest _ ih =>
      simp [append, tokens, ih]
  | «return» keyword semicolon rest ih => simp [append, tokens, ih]

theorem nodes_append (ss ss' : StatementList) :
    (ss.append ss').nodes = ss.nodes ++ ss'.nodes := by
  induction ss with
  | done => rfl
  | declaration dataType name assign e semicolon rest ih => simp [append, nodes, ih]
  | assignment name assign e semicolon rest ih => simp [append, nodes, ih]
  | conditional keyword opening condition closing braces body rest _ ih =>
      simp [append, nodes, ih]
  | «return» keyword semicolon rest ih => simp [append, nodes, ih]

theorem Valid.append {ss ss' : StatementList} (h : ss.Valid) (h' : ss'.Valid) :
    (ss.append ss').Valid := by
  induction ss with
  | done => exact h'
  | declaration dataType name assign e semicolon rest ih => exact ⟨h.1, h.2.1, ih h.2.2⟩
  | assignment name assign e semicolon rest ih => exact ⟨h.1, ih h.2⟩
  | conditional keyword opening condition closing braces body rest _ ih =>
      obtain ⟨hkeyword, he, hsingle, hbody, hrest⟩ := h
      exact ⟨hkeyword, he, hsingle, hbody, ih hrest⟩
  | «return» keyword semicolon rest ih => exact ih h

theorem BlocksWithin.append {n : ℕ} {ss ss' : StatementList} (h : ss.BlocksWithin n)
    (h' : ss'.BlocksWithin n) : (ss.append ss').BlocksWithin n := by
  induction ss with
  | done => exact h'
  | declaration dataType name assign e semicolon rest ih => exact ih h
  | assignment name assign e semicolon rest ih => exact ih h
  | conditional keyword opening condition closing braces body rest _ ih =>
      exact ⟨h.1, h.2.1, ih h.2.2⟩
  | «return» keyword semicolon rest ih => exact ih h

end StatementList

section Taken

variable {R : Type} {tokenNext : R → Token × R}

/-- The parser has taken the tokens of the statements `ss`. -/
structure TakesStatements (tokenNext : R → Token × R) (p : Parser R) (ss : StatementList)
    (p' : Parser R) : Prop where
  valid : ss.Valid
  within : ss.BlocksWithin 511
  takes : Takes tokenNext p ss.tokens p'

/-- `parser_parseStatement` has taken the tokens of one statement. -/
def TakesStatement (tokenNext : R → Token × R) (p : Parser R) (node : AstNode)
    (p' : Parser R) : Prop :=
  ∃ ss, TakesStatements tokenNext p ss p' ∧ ss.nodes = [node]

/-- `parser_parseBlock` has taken the tokens of a block. -/
def TakesBlock (tokenNext : R → Token × R) (p : Parser R) (node : AstNode) (p' : Parser R) :
    Prop :=
  ∃ braces body, (braces = none → StatementList.length body = 1) ∧ body.length ≤ 511 ∧
    body.Valid ∧ body.BlocksWithin 511 ∧ node = .block body.nodes ∧
      Takes tokenNext p (blockTokens braces body.tokens) p'

theorem fail_isNull {p p' : Parser R} {error : String} {node : AstNode}
    (h : p.fail error = .ok (node, p')) : node.isNull = true := by
  cases h
  rfl

theorem exists_of_parserExpect {p p' : Parser R} {type : TokenType} {error : String}
    {next : Parser R → Except Stop (AstNode × Parser R)} {node : AstNode}
    (h : parserExpect tokenNext p type error next = .ok (node, p')) (hnode : node.isNull = false) :
    ∃ text p₁, Takes tokenNext p [⟨type, text⟩] p₁ ∧ next p₁ = .ok (node, p') := by
  unfold parserExpect at h
  generalize hnext : parserNext tokenNext p = result at h
  obtain ⟨tok, p₁⟩ := result
  dsimp only at h
  by_cases htype : tok.type = type
  · rw [if_pos htype] at h
    refine ⟨tok.range, p₁, ?_, h⟩
    rw [← htype]
    exact (parserNext_takes hnext).1
  · rw [if_neg htype] at h
    rw [fail_isNull h] at hnode
    cases hnode

/-- Taking a token that has been peeked at. -/
theorem exists_of_peek {p p₁ : Parser R} {t : Token}
    (h : parserPeekToken tokenNext p = (t, p₁)) :
    ∃ p₂, parserNext tokenNext p₁ = (t, p₂) ∧ Takes tokenNext p [t] p₂ := by
  obtain ⟨htakes, -, ht⟩ := parserPeekToken_takes h
  refine ⟨(parserNext tokenNext p₁).2, Prod.ext ht rfl, ?_⟩
  exact htakes.trans (parserNext_takes (Prod.ext ht rfl)).1

theorem exists_parsedExpression {fuel : ℕ} {p p' : Parser R} {node : AstNode}
    (h : parserParseExpression tokenNext fuel p = .ok (node, p')) (hnode : node.isNull = false) :
    ∃ e : Phrase, e.IsExpression ∧ e.parsed = node ∧ Takes tokenNext p e.tokens p' := by
  obtain ⟨e, he⟩ := Phrase.exists_phrase h
  refine ⟨e, ⟨he.valid, he.returns, fun hmissing => ?_⟩, he.node, he.takes⟩
  rw [← he.valid.parsed_isNull, he.node, hnode] at hmissing
  cases hmissing

theorem exists_parsedAssignment {fuel : ℕ} {p p' : Parser R} {name : Range} {node : AstNode}
    (h : parserParseAssignment tokenNext fuel p name = .ok (node, p'))
    (hnode : node.isNull = false) : ∃ (assign : Token) (e : Phrase) (p₁ : Parser R),
      parserNext tokenNext p = (assign, p₁) ∧ e.IsExpression ∧
        node = StatementList.assignNode name e ∧ Takes tokenNext p₁ e.tokens p' := by
  unfold parserParseAssignment at h
  generalize hnext : parserNext tokenNext p = result at h
  obtain ⟨assign, p₁⟩ := result
  dsimp only at h
  obtain ⟨⟨assigned, p₂⟩, hparse, h⟩ := exists_of_bind_ok h
  dsimp only at h
  by_cases hnull : assigned.isNull = true
  · rw [if_pos hnull] at h
    cases h
    cases hnode
  · rw [if_neg hnull] at h
    cases h
    obtain ⟨e, he, rfl, htakes⟩ := exists_parsedExpression hparse (Bool.eq_false_iff.mpr hnull)
    exact ⟨assign, e, p₁, rfl, he, rfl, htakes⟩

theorem exists_parsedDeclaration {fuel : ℕ} {p p₁ p' : Parser R} {t : Token} {node : AstNode}
    (hpeek : parserPeekToken tokenNext p = (t, p₁))
    (h : parserParseDeclaration tokenNext fuel p₁ = .ok (node, p'))
    (hnode : node.isNull = false) : TakesStatement tokenNext p node p' := by
  obtain ⟨p₂, hnext₂, htakes₂⟩ := exists_of_peek hpeek
  rw [parserParseDeclaration, hnext₂] at h
  dsimp only at h
  by_cases htype : isDataType t.type = true
  · rw [if_pos htype] at h
    generalize hnext₃ : parserNext tokenNext p₂ = result at h
    obtain ⟨name, p₃⟩ := result
    dsimp only at h
    obtain ⟨⟨assigned, p₄⟩, hassign, h⟩ := exists_of_bind_ok h
    dsimp only at h
    by_cases hnull : assigned.isNull = true
    · rw [if_pos hnull] at h
      cases h
      cases hnode
    · rw [if_neg hnull] at h
      obtain ⟨assign, e, p₅, hnext₅, he, rfl, htakes₅⟩ :=
        exists_parsedAssignment hassign (Bool.eq_false_iff.mpr hnull)
      obtain ⟨semicolon, p₆, htakes₆, h⟩ := exists_of_parserExpect h hnode
      cases h
      refine ⟨.declaration t name assign e semicolon .done, ⟨⟨htype, he, trivial⟩, trivial, ?_⟩, rfl⟩
      have htaken := (((htakes₂.trans (parserNext_takes hnext₃).1).trans
        (parserNext_takes hnext₅).1).trans htakes₅).trans htakes₆
      simpa [StatementList.tokens] using htaken
  · rw [if_neg htype] at h
    cases h

theorem exists_assignmentOrCall {fuel : ℕ} {p p₁ p' : Parser R} {t : Token} {node : AstNode}
    (hpeek : parserPeekToken tokenNext p = (t, p₁))
    (h : parserParseAssignmentOrCall tokenNext fuel p₁ = .ok (node, p'))
    (hnode : node.isNull = false) : TakesStatement tokenNext p node p' := by
  obtain ⟨p₂, hnext₂, htakes₂⟩ := exists_of_peek hpeek
  rw [parserParseAssignmentOrCall, hnext₂] at h
  dsimp only at h
  by_cases hid : t.type = .ID
  · rw [if_pos hid] at h
    generalize hpeek₃ : parserPeekToken tokenNext p₂ = result at h
    obtain ⟨op, p₃⟩ := result
    obtain ⟨p₄, hnext₄, htakes₄⟩ := exists_of_peek hpeek₃
    dsimp only at h
    by_cases hop : op.type = .ASSIGN
    · rw [if_pos hop] at h
      obtain ⟨⟨assigned, p₅⟩, hassign, h⟩ := exists_of_bind_ok h
      obtain ⟨semicolon, p₆, htakes₆, h⟩ := exists_of_parserExpect h hnode
      cases h
      obtain ⟨assign, e, p₇, hnext₇, he, rfl, htakes₇⟩ := exists_parsedAssignment hassign hnode
      cases hnext₄.symm.trans hnext₇
      have htok : t = ⟨.ID, t.range⟩ := by rw [← hid]
      have htok' : op = ⟨.ASSIGN, op.range⟩ := by rw [← hop]
      refine ⟨.assignment t.range op.range e semicolon .done, ⟨⟨he, trivial⟩, trivial, ?_⟩, rfl⟩
      have htaken := ((htakes₂.trans htakes₄).trans htakes₇).trans htakes₆
      rw [StatementList.tokens, ← htok, ← htok']
      simpa [StatementList.tokens] using htaken
    · rw [if_neg hop] at h
      rw [fail_isNull h] at hnode
      cases hnode
  · rw [if_neg hid] at h
    rw [fail_isNull h] at hnode
    cases hnode

theorem exists_return {p p₁ p' : Parser R} {t : Token} {node : AstNode}
    (hpeek : parserPeekToken tokenNext p = (t, p₁)) (ht : t.type = .KW_RETURN)
    (h : parserParseReturn tokenNext p₁ = .ok (node, p')) (hnode : node.isNull = false) :
    TakesStatement tokenNext p node p' := by
  obtain ⟨p₂, hnext₂, htakes₂⟩ := exists_of_peek hpeek
  rw [parserParseReturn, hnext₂] at h
  obtain ⟨semicolon, p₃, htakes₃, h⟩ := exists_of_parserExpect h hnode
  cases h
  have htok : t = ⟨.KW_RETURN, t.range⟩ := by rw [← ht]
  refine ⟨.return t.range semicolon .done, ⟨trivial, trivial, ?_⟩, rfl⟩
  rw [StatementList.tokens, ← htok]
  exact htakes₂.trans htakes₃

theorem exists_condition {fuel : ℕ} {p p₁ p' : Parser R} {t : Token} {node : AstNode}
    {next : AstNode → Parser R → Except Stop (AstNode × Parser R)}
    (hpeek : parserPeekToken tokenNext p = (t, p₁))
    (h : parserParseCondition tokenNext fuel p₁ next = .ok (node, p'))
    (hnode : node.isNull = false) : ∃ (opening closing : Range) (e : Phrase) (p₂ : Parser R),
      e.IsExpression ∧ next e.parsed p₂ = .ok (node, p') ∧
        Takes tokenNext p
          (t :: ⟨.PARAN_OPEN, opening⟩ :: (e.tokens ++ [⟨.PARAN_CLOSE, closing⟩])) p₂ := by
  obtain ⟨p₂, hnext₂, htakes₂⟩ := exists_of_peek hpeek
  rw [parserParseCondition, hnext₂] at h
  obtain ⟨opening, p₃, htakes₃, h⟩ := exists_of_parserExpect h hnode
  obtain ⟨⟨condition, p₄⟩, hparse, h⟩ := exists_of_bind_ok h
  dsimp only at h
  by_cases hnull : condition.isNull = true
  · rw [if_pos hnull] at h
    cases h
    cases hnode
  · rw [if_neg hnull] at h
    obtain ⟨e, he, rfl, htakes₄⟩ := exists_parsedExpression hparse (Bool.eq_false_iff.mpr hnull)
    obtain ⟨closing, p₅, htakes₅, h⟩ := exists_of_parserExpect h hnode
    refine ⟨opening, closing, e, p₅, he, h, ?_⟩
    simpa using ((htakes₂.trans htakes₃).trans htakes₄).trans htakes₅

/-- An `if` or a `while`, by the block that the call in it takes. -/
theorem exists_conditional {fuel : ℕ} {p p₁ p' : Parser R} {t : Token} {node : AstNode}
    {f : AstNode → AstNode → AstNode}
    (hblock : ∀ (p p' : Parser R) node, parserParseBlock tokenNext fuel p = .ok (node, p') →
      node.isNull = false → TakesBlock tokenNext p node p')
    (hpeek : parserPeekToken tokenNext p = (t, p₁))
    (ht : t.type = .KW_IF ∧ f = .if ∨ t.type = .KW_WHILE ∧ f = .while)
    (h : parserParseCondition tokenNext fuel p₁ (fun condition p => do
      let (block, p) ← parserParseBlock tokenNext fuel p
      if block.isNull then .ok (.null, p) else .ok (f condition block, p)) = .ok (node, p'))
    (hnode : node.isNull = false) : TakesStatement tokenNext p node p' := by
  obtain ⟨opening, closing, e, p₂, he, h, htakes₂⟩ := exists_condition hpeek h hnode
  obtain ⟨⟨block, p₃⟩, hparse, h⟩ := exists_of_bind_ok h
  dsimp only at h
  by_cases hnull : block.isNull = true
  · rw [if_pos hnull] at h
    cases h
    cases hnode
  · rw [if_neg hnull] at h
    cases h
    obtain ⟨braces, body, hsingle, hlength, hvalid, hwithin, rfl, htakes₃⟩ :=
      hblock p₂ p' block hparse (Bool.eq_false_iff.mpr hnull)
    have hkeyword : t.type = .KW_IF ∨ t.type = .KW_WHILE := ht.imp And.left And.left
    refine ⟨.conditional t opening e closing braces body .done,
      ⟨⟨hkeyword, he, hsingle, hvalid, trivial⟩, ⟨hlength, hwithin, trivial⟩, ?_⟩, ?_⟩
    · have htaken := htakes₂.trans htakes₃
      simpa [StatementList.tokens] using htaken
    · rcases ht with ⟨hif, rfl⟩ | ⟨hwhile, rfl⟩
      · simp [StatementList.nodes, hif]
      · simp [StatementList.nodes, hwhile]

theorem le_of_zoneAlloc {n : ℕ} {u : Unit} (h : zoneAlloc (8 * n) = .ok u) : n ≤ 511 := by
  have hmax : maxZoneAllocation = 4088 := rfl
  unfold zoneAlloc at h
  by_cases hle : 8 * n ≤ maxZoneAllocation
  · omega
  · rw [if_neg hle] at h
    cases h

/-- What a call of `parser_parseStatement` takes, by the blocks that calls in it take. -/
theorem parseStatement_takes {fuel : ℕ}
    (hblock : ∀ k < fuel, ∀ (p p' : Parser R) node,
      parserParseBlock tokenNext k p = .ok (node, p') → node.isNull = false →
        TakesBlock tokenNext p node p')
    {p p' : Parser R} {node : AstNode} (h : parserParseStatement tokenNext fuel p = .ok (node, p'))
    (hnode : node.isNull = false) : TakesStatement tokenNext p node p' := by
  cases fuel with
  | zero =>
      rw [parserParseStatement] at h
      cases h
  | succ fuel =>
      rw [parserParseStatement] at h
      generalize hpeek : parserPeekToken tokenNext p = result at h
      obtain ⟨t, p₁⟩ := result
      dsimp only at h
      by_cases htype : isDataType t.type = true
      · rw [if_pos htype] at h
        exact exists_parsedDeclaration hpeek h hnode
      · rw [if_neg htype] at h
        split at h
        · rename_i hif
          cases fuel with
          | zero =>
              rw [parserParseIf] at h
              cases h
          | succ fuel =>
              rw [parserParseIf] at h
              exact exists_conditional (hblock fuel (by omega)) hpeek (.inl ⟨hif, rfl⟩) h hnode
        · rename_i hwhile
          cases fuel with
          | zero =>
              rw [parserParseWhile] at h
              cases h
          | succ fuel =>
              rw [parserParseWhile] at h
              exact exists_conditional (hblock fuel (by omega)) hpeek (.inr ⟨hwhile, rfl⟩) h hnode
        · rename_i hreturn
          exact exists_return hpeek hreturn h hnode
        · exact exists_assignmentOrCall hpeek h hnode
        · rw [fail_isNull h] at hnode
          cases hnode

/-- The loop of a block has taken the tokens of the statements that it adds. -/
def TakesLoop (tokenNext : R → Token × R) (p : Parser R) (statements all : List AstNode)
    (p' : Parser R) : Prop :=
  ∃ ss closing p'', all = statements ++ StatementList.nodes ss ∧
    TakesStatements tokenNext p ss p' ∧ parserNext tokenNext p' = (⟨.CURLY_CLOSE, closing⟩, p'')

/-- What a call of the loop takes. -/
theorem blockLoop_takes {fuel : ℕ}
    (hstmt : ∀ (p p' : Parser R) node, parserParseStatement tokenNext fuel p = .ok (node, p') →
      node.isNull = false → TakesStatement tokenNext p node p')
    (hloop : ∀ (p p' : Parser R) statements all,
      parserBlockLoop tokenNext fuel p statements = .ok (some all, p') →
        TakesLoop tokenNext p statements all p')
    {p p' : Parser R} {statements all : List AstNode}
    (h : parserBlockLoop tokenNext (fuel + 1) p statements = .ok (some all, p')) :
    TakesLoop tokenNext p statements all p' := by
  rw [parserBlockLoop] at h
  generalize hpeek : parserPeekToken tokenNext p = result at h
  obtain ⟨t, p₁⟩ := result
  obtain ⟨htakes₁, -, -⟩ := parserPeekToken_takes hpeek
  dsimp only at h
  by_cases heof : t.type = .EEOF
  · rw [if_pos heof] at h
    cases h
  · rw [if_neg heof] at h
    by_cases hclose : t.type = .CURLY_CLOSE
    · rw [if_pos hclose] at h
      cases h
      obtain ⟨p₂, hnext, -⟩ := exists_of_peek hpeek
      refine ⟨.done, t.range, p₂, (List.append_nil _).symm, ⟨trivial, trivial, htakes₁⟩, ?_⟩
      rw [hnext, ← hclose]
    · rw [if_neg hclose] at h
      obtain ⟨⟨node, p₂⟩, hparse, h⟩ := exists_of_bind_ok h
      dsimp only at h
      by_cases hnull : node.isNull = true
      · rw [if_pos hnull] at h
        cases h
      · rw [if_neg hnull] at h
        obtain ⟨stmt, ⟨hvalid, hwithin, htakes₂⟩, hnodes⟩ :=
          hstmt p₁ p₂ node hparse (Bool.eq_false_iff.mpr hnull)
        obtain ⟨ss, closing, p₃, rfl, ⟨hvalid', hwithin', htakes₃⟩, hnext⟩ := hloop p₂ p' _ all h
        refine ⟨stmt.append ss, closing, p₃, ?_,
          ⟨hvalid.append hvalid', hwithin.append hwithin', ?_⟩, hnext⟩
        · rw [StatementList.nodes_append, hnodes, List.append_assoc]
        · rw [StatementList.tokens_append]
          exact (htakes₁.trans htakes₂).trans htakes₃

/-- What a call of `parser_parseBlock` takes. -/
theorem parseBlock_takes {fuel : ℕ}
    (hstmt : ∀ (p p' : Parser R) node, parserParseStatement tokenNext fuel p = .ok (node, p') →
      node.isNull = false → TakesStatement tokenNext p node p')
    (hloop : ∀ (p p' : Parser R) statements all,
      parserBlockLoop tokenNext fuel p statements = .ok (some all, p') →
        TakesLoop tokenNext p statements all p')
    {p p' : Parser R} {node : AstNode}
    (h : parserParseBlock tokenNext (fuel + 1) p = .ok (node, p')) (hnode : node.isNull = false) :
    TakesBlock tokenNext p node p' := by
  rw [parserParseBlock] at h
  generalize hpeek : parserPeekToken tokenNext p = result at h
  obtain ⟨t, p₁⟩ := result
  obtain ⟨htakes₁, -, -⟩ := parserPeekToken_takes hpeek
  obtain ⟨p₂, hnext₂, htakes₂⟩ := exists_of_peek hpeek
  dsimp only at h
  by_cases hopen : t.type = .CURLY_OPEN
  · rw [if_pos hopen, hnext₂] at h
    dsimp only at h
    obtain ⟨⟨statements, p₃⟩, hrun, h⟩ := exists_of_bind_ok h
    cases statements with
    | none =>
        cases h
        cases hnode
    | some all =>
        obtain ⟨ss, closing, p₄, rfl, ⟨hvalid, hwithin, htakes₃⟩, hnext₄⟩ :=
          hloop p₂ p₃ [] all hrun
        dsimp only at h
        rw [hnext₄] at h
        obtain ⟨u, hzone, h⟩ := exists_of_bind_ok h
        cases h
        have hle := le_of_zoneAlloc hzone
        rw [List.nil_append, StatementList.nodes_length] at hle
        have htok : t = ⟨.CURLY_OPEN, t.range⟩ := by rw [← hopen]
        refine ⟨some (t.range, closing), ss, nofun, hle, hvalid, hwithin,
          rfl, ?_⟩
        rw [blockTokens, ← htok]
        exact htakes₂.trans (htakes₃.trans (parserNext_takes hnext₄).1)
  · rw [if_neg hopen] at h
    obtain ⟨⟨stmtNode, p₃⟩, hparse, h⟩ := exists_of_bind_ok h
    dsimp only at h
    by_cases hnull : stmtNode.isNull = true
    · rw [if_pos hnull] at h
      cases h
      cases hnode
    · rw [if_neg hnull] at h
      obtain ⟨u, -, h⟩ := exists_of_bind_ok h
      cases h
      obtain ⟨ss, ⟨hvalid, hwithin, htakes₃⟩, hnodes⟩ :=
        hstmt p₁ p' stmtNode hparse (Bool.eq_false_iff.mpr hnull)
      have hone : ss.length = 1 := by
        rw [← StatementList.nodes_length, hnodes]
        rfl
      exact ⟨none, ss, fun _ => hone, by omega, hvalid, hwithin, by rw [hnodes],
        htakes₁.trans htakes₃⟩

/-- **Whenever the parser returns statements, it has taken their tokens**, by induction on
the fuel. -/
theorem exists_taken_statements (fuel : ℕ) :
    (∀ (p p' : Parser R) node, parserParseStatement tokenNext fuel p = .ok (node, p') →
      node.isNull = false → TakesStatement tokenNext p node p') ∧
    (∀ (p p' : Parser R) statements all,
      parserBlockLoop tokenNext fuel p statements = .ok (some all, p') →
        TakesLoop tokenNext p statements all p') ∧
    (∀ (p p' : Parser R) node, parserParseBlock tokenNext fuel p = .ok (node, p') →
      node.isNull = false → TakesBlock tokenNext p node p') := by
  induction fuel using Nat.strong_induction_on with
  | _ fuel ih =>
      refine ⟨fun p p' node h hnode =>
        parseStatement_takes (fun k hk => (ih k hk).2.2) h hnode, ?_, ?_⟩
      · intro p p' statements all h
        cases fuel with
        | zero =>
            rw [parserBlockLoop] at h
            cases h
        | succ fuel =>
            obtain ⟨hstmt, hloop, -⟩ := ih fuel (Nat.lt_succ_self fuel)
            exact blockLoop_takes hstmt hloop h
      · intro p p' node h hnode
        cases fuel with
        | zero =>
            rw [parserParseBlock] at h
            cases h
        | succ fuel =>
            obtain ⟨hstmt, hloop, -⟩ := ih fuel (Nat.lt_succ_self fuel)
            exact parseBlock_takes hstmt hloop h hnode

/-- **Whenever the parser returns a function, it has taken the tokens of one.** -/
theorem exists_functionText {fuel : ℕ} {p p' : Parser R} {node : AstNode}
    (h : parserParseFunction tokenNext fuel p = .ok (node, p')) (hnode : node.isNull = false) :
    ∃ f : FunctionText, f.Valid ∧ f.BlocksWithin 511 ∧ node = f.ast ∧
      Takes tokenNext p f.tokens p' := by
  unfold parserParseFunction at h
  generalize hnext₁ : parserNext tokenNext p = result at h
  obtain ⟨dataType, p₁⟩ := result
  obtain ⟨htakes₁, -⟩ := parserNext_takes hnext₁
  dsimp only at h
  by_cases htype : isDataType dataType.type = true
  · rw [if_pos htype] at h
    generalize hnext₂ : parserNext tokenNext p₁ = result at h
    obtain ⟨name, p₂⟩ := result
    obtain ⟨htakes₂, -⟩ := parserNext_takes hnext₂
    dsimp only at h
    by_cases hid : name.type = .ID
    · rw [if_pos hid] at h
      obtain ⟨opening, p₃, htakes₃, h⟩ := exists_of_parserExpect h hnode
      obtain ⟨closing, p₄, htakes₄, h⟩ := exists_of_parserExpect h hnode
      obtain ⟨⟨block, p₅⟩, hparse, h⟩ := exists_of_bind_ok h
      dsimp only at h
      by_cases hnull : block.isNull = true
      · rw [if_pos hnull] at h
        cases h
        cases hnode
      · rw [if_neg hnull] at h
        cases h
        obtain ⟨braces, body, hsingle, hlength, hvalid, hwithin, rfl, htakes₅⟩ :=
          (exists_taken_statements fuel).2.2 p₄ p' block hparse (Bool.eq_false_iff.mpr hnull)
        have htok : name = ⟨.ID, name.range⟩ := by rw [← hid]
        refine ⟨⟨dataType, name.range, opening, closing, braces, body⟩, ⟨htype, hsingle, hvalid⟩,
          ⟨hlength, hwithin⟩, rfl, ?_⟩
        have htaken := (((htakes₁.trans htakes₂).trans htakes₃).trans htakes₄).trans htakes₅
        rw [FunctionText.tokens, ← htok]
        simpa using htaken
    · rw [if_neg hid] at h
      rw [fail_isNull h] at hnode
      cases hnode
  · rw [if_neg htype] at h
    rw [fail_isNull h] at hnode
    cases hnode

end Taken
