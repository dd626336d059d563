/-
# What IR creation does, statement by statement

The trees that the creator accepts are those of `Expression` and `Statements`.  For every
kind of node one lemma says when `createValue` and `createStatement` accept it and what
they return; everything else about IR creation is derived from these.  The main result is
`createStatements_code` : the code of accepted statements lies in the `Ir` as
`StatementsCode` says.
-/
import Mathlib.Data.Option.Basic
import MCompiler.IrCreation
import MCompiler.IrEmit

/-! ## Creators -/

namespace IrCreator

/-- A new instruction at the end of the current block. -/
def emit (c : IrCreator) (type : InstType) (dataType : DataType) (uses : List (Option Value)) :
    IrCreator :=
  { c with ctx := c.ctx.emit c.block type dataType uses }

/-- The length of the current block. -/
def pos (c : IrCreator) : ℕ := (c.ctx.blocks c.block).length

/-- The registers of the variables in scope. -/
def scopes (c : IrCreator) : Scopes :=
  c.blockInfo.map fun m varName => (m varName).map CreatorVariable.rId

/-- The creator in a new block with a new variable map. -/
def enterBlock (c : IrCreator) : IrCreator :=
  { c with
    ctx := (blockNew c.ctx).1
    block := c.ctx.blockCount
    blockInfo := (fun _ => none) :: c.blockInfo }

/-- Creator `c` after the block that `inner` has completed. -/
def leaveBlock (c inner : IrCreator) : IrCreator :=
  { inner with block := c.block, blockInfo := inner.blockInfo.tail }

end IrCreator

theorem lookup_scopes (c : IrCreator) (varName : Range) :
    c.scopes.lookup varName = (findReg c.blockInfo varName).map CreatorVariable.rId := by
  unfold IrCreator.scopes
  induction c.blockInfo with
  | nil => rfl
  | cons m ms ih =>
      rw [List.map_cons, findReg, Scopes.lookup, ih]
      cases m varName with
      | none => rfl
      | some var => rfl

@[simp] theorem scopes_enterBlock (c : IrCreator) : c.enterBlock.scopes = c.scopes.nest := rfl

@[simp] theorem pos_emit (c : IrCreator) (type : InstType) (dataType : DataType)
    (uses : List (Option Value)) : (c.emit type dataType uses).pos = c.pos + 1 := by
  unfold IrCreator.pos IrCreator.emit
  rw [emit_blocks_self, List.length_append]
  rfl

/-! ## Expressions -/

theorem createValue_number (c : IrCreator) (num : Int64) :
    createValue c (.number num) =
      some ({ c with ctx := (irConstantValue c.ctx num).1 }, .const c.ctx.constCount) := rfl

theorem createValue_variable {c : IrCreator} {varName : Range} {r : IrCreator × Value} :
    createValue c (.variable varName false) = some r ↔
      ∃ var, findReg c.blockInfo varName = some var ∧
        r = (c.emit (.loadVar var.rId) (convertDataType var.dataType) [], .inst c.ctx.instCount) := by
  rw [createValue]
  cases findReg c.blockInfo varName with
  | none => simp
  | some var =>
      simp only [Option.bind_eq_bind, Option.bind_some, Option.some.injEq, exists_eq_left']
      unfold instNewLoadVar
      rw [instNew_eq]
      exact ⟨fun h => (Option.some.inj h).symm, fun h => congrArg some h.symm⟩

theorem binaryOperator_token (op : BinaryOps) : binaryOperator op.token = some op := by
  cases op <;> rfl

theorem token_of_binaryOperator {t : TokenType} {op : BinaryOps} (h : binaryOperator t = some op) :
    op.token = t := by
  cases t <;> cases h <;> rfl

theorem createValue_binary {c : IrCreator} {op : BinaryOps} {left right : AstNode}
    {r : IrCreator × Value} :
    createValue c (.binaryExp op.token left right false) = some r ↔
      ∃ c₁ l c₂ v, createValue c left = some (c₁, l) ∧ createValue c₁ right = some (c₂, v) ∧
        c₂.ctx.dataType l = c₂.ctx.dataType v ∧
        r = (c₂.emit (.binary op) (c₂.ctx.dataType l) [some l, some v], .inst c₂.ctx.instCount) := by
  rw [createValue]
  simp only [binaryOperator_token, Option.bind_eq_bind, Option.bind_some]
  constructor
  · intro h
    obtain ⟨⟨c₁, l⟩, hl, h⟩ := Option.bind_eq_some_iff.mp h
    obtain ⟨⟨c₂, v⟩, hv, h⟩ := Option.bind_eq_some_iff.mp h
    obtain ⟨⟨ctx, i⟩, hbin, h⟩ := Option.bind_eq_some_iff.mp h
    have htype := instNewBinary_isSome hbin
    rw [instNewBinary_eq _ _ _ _ htype] at hbin
    cases hbin
    cases h
    exact ⟨c₁, l, c₂, v, hl, hv, htype, rfl⟩
  · rintro ⟨c₁, l, c₂, v, hl, hv, htype, rfl⟩
    simp only [hl, hv, Option.bind_some, instNewBinary_eq _ _ _ _ htype]
    rfl

/-- The trees that `create_value` accepts are those of expressions. -/
theorem exists_expression : ∀ {node : AstNode} {c : IrCreator} {r : IrCreator × Value},
    createValue c node = some r → ∃ e : Expression, e.toAst = node
  | .binaryExp t left right false, c, r, h => by
      have h' := h
      rw [createValue] at h'
      obtain ⟨op, hop, -⟩ := Option.bind_eq_some_iff.mp h'
      have ht := token_of_binaryOperator hop
      subst ht
      obtain ⟨c₁, l, c₂, v, hl, hv, -⟩ := createValue_binary.mp h
      obtain ⟨el, rfl⟩ := exists_expression hl
      obtain ⟨er, rfl⟩ := exists_expression hv
      exact ⟨.binary op el er, rfl⟩
  | .variable varName false, _, _, _ => ⟨.var varName, rfl⟩
  | .number num, _, _, _ => ⟨.number num, rfl⟩
  | .null, _, _, h => nomatch h
  | .variable _ true, _, _, h => nomatch h
  | .binaryExp _ _ _ true, _, _, h => nomatch h
  | .while _ _, _, _, h => nomatch h
  | .if _ _, _, _, h => nomatch h
  | .block _, _, _, h => nomatch h
  | .return, _, _, h => nomatch h
  | .declaration _ _, _, _, h => nomatch h
  | .function _ _ _ _, _, _, h => nomatch h

/-- What `create_value` does: it keeps all but the current block, and the code of the
expression lies between the old and the new end of this block. -/
structure ValueCreated (c : IrCreator) (e : Expression) (c' : IrCreator) (v : Value) : Prop where
  regCount : c'.regCount = c.regCount
  block : c'.block = c.block
  blockInfo : c'.blockInfo = c.blockInfo
  blockCount : c'.ctx.blockCount = c.ctx.blockCount
  grows : Extends (· = c.block) c.ctx c'.ctx
  below : v.Below c'.ctx.instCount
  code : ∀ {S ir}, Extends S c'.ctx ir →
    ExpressionCode ir c.scopes c.block c.pos c.ctx.instCount e v c'.pos c'.ctx.instCount

/-- **Expressions.** -/
theorem createValue_created {e : Expression} {c c' : IrCreator} {v : Value}
    (hb : c.block < c.ctx.blockCount) (h : createValue c e.toAst = some (c', v)) :
    ValueCreated c e c' v := by
  induction e generalizing c c' v with
  | number num =>
      rw [Expression.toAst, createValue_number] at h
      cases h
      have hgrows := extends_irConstantValue c.ctx num
      refine ⟨rfl, rfl, rfl, rfl, hgrows.mono fun _ _ _ => id, trivial, fun hext => .number ?_⟩
      rw [hext.consts _ (Nat.lt_succ_self _)]
      exact Function.update_self _ _ _
  | var varName =>
      obtain ⟨var, hvar, hr⟩ := createValue_variable.mp h
      cases hr
      refine ⟨rfl, rfl, rfl, rfl, extends_emit _ _ _ _ _, Nat.lt_succ_self _, fun hext => ?_⟩
      rw [pos_emit]
      refine .var ?_ (hext.hasInst hb (Nat.lt_succ_self _) (hasInst_emit _ _ _ _ _))
      rw [lookup_scopes, hvar]
      rfl
  | binary op left right ihl ihr =>
      obtain ⟨c₁, l, c₂, x, hl, hx, -, hr⟩ := createValue_binary.mp h
      cases hr
      have hleft := ihl hb hl
      have hb₁ : c₁.block < c₁.ctx.blockCount := by
        rw [hleft.block, hleft.blockCount]
        exact hb
      have hright := ihr hb₁ hx
      have hblock : c₂.block = c.block := hright.block.trans hleft.block
      have hemit := extends_emit c₂.ctx c₂.block (.binary op) (c₂.ctx.dataType l)
        [some l, some x]
      refine ⟨hright.regCount.trans hleft.regCount, hblock,
        hright.blockInfo.trans hleft.blockInfo, hright.blockCount.trans hleft.blockCount,
        ?_, Nat.lt_succ_self _, fun {S ir} hext => ?_⟩
      · refine (hleft.grows.trans hright.grows (T := (· = c.block)) fun b _ hb => ?_).trans hemit
          fun b _ hb => ⟨hb, fun h => hb (h.trans hblock)⟩
        exact ⟨hb, fun h => hb (h.trans hleft.block)⟩
      · have hcode₂ := hright.code (hemit.trans hext (T := fun _ => True)
          fun _ _ h => absurd trivial h)
        have hcode₁ := hleft.code ((hright.grows.trans hemit (T := fun _ => True)
          fun _ _ h => absurd trivial h).trans hext (T := fun _ => True)
            fun _ _ h => absurd trivial h)
        have hscopes : c₁.scopes = c.scopes := by
          unfold IrCreator.scopes
          rw [hleft.blockInfo]
        have hb₂ : c₂.block < c₂.ctx.blockCount := by
          rw [hright.blockCount, hblock, hleft.blockCount]
          exact hb
        have hinst := hext.hasInst hb₂ (Nat.lt_succ_self _)
          (hasInst_emit c₂.ctx c₂.block (.binary op) (c₂.ctx.dataType l) [some l, some x])
        rw [pos_emit]
        rw [hscopes, hleft.block] at hcode₂
        rw [hblock] at hinst
        refine .binary hcode₁ hcode₂ ?_
        unfold IrCreator.pos
        rw [hblock]
        exact hinst

/-! ## Statements -/

namespace IrCreator

/-- The creator after an `if` whose block was created from `c` as `inner`. -/
def endIf (c inner : IrCreator) (v : Value) : IrCreator :=
  { c.leaveBlock inner with
    ctx := ((blockNew inner.ctx).1.emit c.block .jumpCond .void
      [some (.block c.ctx.blockCount), some (.block inner.ctx.blockCount), some v]).emit
        inner.block .jump .void [some (.block inner.ctx.blockCount)]
    block := inner.ctx.blockCount }

/-- The creator before the body of a `while`: the new block is the head. -/
def enterLoop (c : IrCreator) : IrCreator :=
  { c with ctx := (blockNew c.ctx).1.emit c.block .jump .void [some (.block c.ctx.blockCount)] }

/-- The creator in the head of a `while`, after the body was created as `inner`: the jump
back stands in the first block of the body. -/
def loopHead (c inner : IrCreator) : IrCreator :=
  { c.leaveBlock inner with
    ctx := (blockNew (inner.ctx.emit c.enterLoop.ctx.blockCount .jump .void
      [some (.block c.ctx.blockCount)])).1
    block := c.ctx.blockCount }

/-- The creator after a `while`, from its head with the condition. -/
def endLoop (c inner c' : IrCreator) (v : Value) : IrCreator :=
  { c'.emit .jumpCond .void
      [some (.block c.enterLoop.ctx.blockCount), some (.block inner.ctx.blockCount), some v] with
    block := inner.ctx.blockCount }

end IrCreator

theorem createAssignment_eq_some {c c' : IrCreator} {varName : Range} {right : AstNode} :
    createAssignment c (.variable varName false) right = some c' ↔
      ∃ var c₁ v, findReg c.blockInfo varName = some var ∧ createValue c right = some (c₁, v) ∧
        c' = c₁.emit (.assignVar var.rId) .void [some v] := by
  unfold createAssignment
  simp only [Option.bind_eq_bind, Option.bind_eq_some_iff, instNewAssignVar_eq]
  constructor
  · rintro ⟨var, hvar, ⟨c₁, v⟩, hv, ⟨ctx, i⟩, hnew, hr⟩
    cases hnew
    cases hr
    exact ⟨var, c₁, v, hvar, hv, rfl⟩
  · rintro ⟨var, c₁, v, hvar, hv, rfl⟩
    exact ⟨var, hvar, (c₁, v), hv, _, rfl, rfl⟩

theorem createReg_eq_some {c c' : IrCreator} {varName : Range} {dataType : TokenType} :
    createReg c varName dataType = some c' ↔
      ∃ m ms, c.blockInfo = m :: ms ∧ m varName = none ∧ c' = { c with
        blockInfo := Function.update m varName (some ⟨c.regCount, dataType⟩) :: ms
        regCount := c.regCount + 1 } := by
  unfold createReg
  constructor
  · intro h
    split at h
    · cases h
    · rename_i m ms hinfo
      split at h
      · cases h
      · rename_i hm
        exact ⟨m, ms, hinfo, hm, (Option.some.inj h).symm⟩
  · rintro ⟨m, ms, hinfo, hm, rfl⟩
    simp only [hinfo, hm]

theorem createStatement_assign {c c' : IrCreator} {varName : Range} {e : Expression} :
    createStatement c (assignmentAst .ASSIGN varName e) = some c' ↔
      createAssignment c (.variable varName false) e.toAst = some c' := by
  unfold assignmentAst
  rw [createStatement, guard, if_pos rfl]
  exact Iff.rfl

theorem createStatement_declare {c c' : IrCreator} {dataType op : TokenType} {varName : Range}
    {e : Expression} :
    createStatement c (.declaration dataType (assignmentAst op varName e)) = some c' ↔
      ∃ c₁, createReg c varName dataType = some c₁ ∧
        createAssignment c₁ (.variable varName false) e.toAst = some c' := by
  unfold assignmentAst
  rw [createStatement]
  exact Option.bind_eq_some_iff

theorem createBlock_eq_some {c : IrCreator} {body : List AstNode} {r : IrCreator × ℕ × ℕ} :
    createBlock c (.block body) = some r ↔
      ∃ inner, createStatements c.enterBlock body = some inner ∧
        r = (c.leaveBlock inner, c.ctx.blockCount, inner.block) := by
  rw [createBlock]
  simp only [Option.bind_eq_bind, Option.bind_eq_some_iff]
  constructor
  · rintro ⟨inner, h, hr⟩
    exact ⟨inner, h, (Option.some.inj hr).symm⟩
  · rintro ⟨inner, h, rfl⟩
    exact ⟨inner, h, rfl⟩

theorem createStatement_if {c c' : IrCreator} {condition : AstNode} {body : List AstNode} :
    createStatement c (.if condition (.block body)) = some c' ↔
      ∃ c₁ v inner, createValue c condition = some (c₁, v) ∧
        createStatements c₁.enterBlock body = some inner ∧ c' = c₁.endIf inner v := by
  rw [createStatement]
  simp only [Option.bind_eq_bind, Option.bind_eq_some_iff, instNewJumpCond_eq, instNewJump_eq]
  constructor
  · rintro ⟨⟨c₁, v⟩, hv, ⟨c₂, start, last⟩, hbody, h⟩
    obtain ⟨inner, hinner, hr⟩ := createBlock_eq_some.mp hbody
    cases hr
    obtain ⟨x, hx, y, hy, h⟩ := h
    cases hx
    cases hy
    exact ⟨c₁, v, inner, hv, hinner, (Option.some.inj h).symm⟩
  · rintro ⟨c₁, v, inner, hv, hinner, rfl⟩
    exact ⟨(c₁, v), hv, _, createBlock_eq_some.mpr ⟨inner, hinner, rfl⟩, _, rfl, _, rfl, rfl⟩

theorem createStatement_while {c c' : IrCreator} {condition : AstNode} {body : List AstNode} :
    createStatement c (.while condition (.block body)) = some c' ↔
      ∃ inner c₁ v, createStatements c.enterLoop.enterBlock body = some inner ∧
        createValue (c.loopHead inner) condition = some (c₁, v) ∧ c' = c.endLoop inner c₁ v := by
  rw [createStatement]
  simp only [Option.bind_eq_bind, instNewJump_eq, Option.bind_some, instNewJumpCond_eq,
    Option.bind_eq_some_iff]
  constructor
  · rintro ⟨⟨c₂, start, last⟩, hbody, ⟨c₁, v⟩, hv, h⟩
    obtain ⟨inner, hinner, hr⟩ := createBlock_eq_some.mp hbody
    cases hr
    exact ⟨inner, c₁, v, hinner, hv, (Option.some.inj h).symm⟩
  · rintro ⟨inner, c₁, v, hinner, hv, rfl⟩
    exact ⟨_, createBlock_eq_some.mpr ⟨inner, hinner, rfl⟩, (c₁, v), hv, rfl⟩

theorem createStatement_return (c : IrCreator) :
    createStatement c .return = some (c.emit .ret .void []) := by
  rw [createStatement]
  unfold instNewReturn
  rw [instNew_eq]
  rfl

theorem createStatement_ignored (c : IrCreator) {node : AstNode} (h : node.isIgnored = true) :
    createStatement c node = some c := by
  cases node with
  | number num => simp [createStatement]
  | «variable» varName wild => simp [createStatement]
  | block childs => simp [createStatement]
  | function name returnType argumentCount childs => simp [createStatement]
  | _ => cases h

theorem createStatements_cons {c c' : IrCreator} {node : AstNode} {rest : List AstNode} :
    createStatements c (node :: rest) = some c' ↔
      ∃ c₁, createStatement c node = some c₁ ∧ createStatements c₁ rest = some c' := by
  rw [createStatements]
  exact Option.bind_eq_some_iff

/-! ## The accepted trees -/

theorem exists_assignment {c c' : IrCreator} {left right : AstNode}
    (h : createAssignment c left right = some c') :
    ∃ varName, ∃ e : Expression, left = .variable varName false ∧ e.toAst = right := by
  unfold createAssignment at h
  split at h
  · rename_i varName
    obtain ⟨var, c₁, v, -, hv, -⟩ := createAssignment_eq_some.mp h
    obtain ⟨e, he⟩ := exists_expression hv
    exact ⟨varName, e, rfl, he⟩
  · cases h

theorem exists_block {c : IrCreator} {node : AstNode} {r : IrCreator × ℕ × ℕ}
    (h : createBlock c node = some r) : ∃ childs, node = .block childs := by
  rw [createBlock.eq_def] at h
  split at h
  · exact ⟨_, rfl⟩
  · cases h

theorem exists_declaration {c c' : IrCreator} {dataType : TokenType} {assignment : AstNode}
    (h : createStatement c (.declaration dataType assignment) = some c') :
    ∃ op varName, ∃ e : Expression, assignment = assignmentAst op varName e := by
  rw [createStatement.eq_def] at h
  split at h
  · cases ‹AstNode.declaration _ _ = _›
  · cases ‹AstNode.declaration _ _ = _›
  · cases ‹AstNode.declaration _ _ = _›
  · cases ‹AstNode.declaration _ _ = _›
  · rename_i op varName right heq
    cases heq
    obtain ⟨c₁, -, hassign⟩ := Option.bind_eq_some_iff.mp h
    obtain ⟨name, e, hname, rfl⟩ := exists_assignment hassign
    exact ⟨op, varName, e, rfl⟩
  · cases h
  · cases ‹AstNode.declaration _ _ = _›
  · cases h
  · rename_i hdecl _ _
    exact (hdecl _ _ rfl).elim

/-- The trees that `create_statement` accepts are those of statements; the induction is on
the size of the trees. -/
theorem exists_statements {l : List AstNode} {c c' : IrCreator}
    (h : createStatements c l = some c') : ∃ ss : Statements, ss.toAst = l := by
  obtain ⟨n, hn⟩ : ∃ n, sizeOf l < n := ⟨_, Nat.lt_succ_self _⟩
  induction n generalizing l c c' with
  | zero => exact absurd hn (Nat.not_lt_zero _)
  | succ n ih =>
      cases l with
      | nil => exact ⟨.done, rfl⟩
      | cons node rest =>
          obtain ⟨c₁, hnode, hrest⟩ := createStatements_cons.mp h
          rw [List.cons.sizeOf_spec] at hn
          obtain ⟨ss, rfl⟩ := ih hrest (by omega)
          by_cases hignored : node.isIgnored = true
          · exact ⟨.other node hignored ss, rfl⟩
          cases node with
          | null => simp [createStatement] at hnode
          | binaryExp op left right wild =>
              cases wild with
              | true => simp [createStatement] at hnode
              | false =>
                  rw [createStatement] at hnode
                  obtain ⟨u, hop, hassign⟩ := Option.bind_eq_some_iff.mp hnode
                  have hop' : op = .ASSIGN := by
                    by_contra hne
                    rw [guard, if_neg hne] at hop
                    cases hop
                  subst hop'
                  obtain ⟨varName, e, rfl, rfl⟩ := exists_assignment hassign
                  exact ⟨.assign varName e ss, rfl⟩
          | «while» condition block =>
              rw [createStatement] at hnode
              obtain ⟨x, -, hnode⟩ := Option.bind_eq_some_iff.mp hnode
              obtain ⟨⟨c₂, start, last⟩, hblock, hnode⟩ := Option.bind_eq_some_iff.mp hnode
              obtain ⟨y, -, hnode⟩ := Option.bind_eq_some_iff.mp hnode
              obtain ⟨⟨c₃, v⟩, hv, -⟩ := Option.bind_eq_some_iff.mp hnode
              obtain ⟨e, rfl⟩ := exists_expression hv
              obtain ⟨body, rfl⟩ := exists_block hblock
              obtain ⟨inner, hinner, -⟩ := createBlock_eq_some.mp hblock
              simp only [AstNode.while.sizeOf_spec, AstNode.block.sizeOf_spec] at hn
              obtain ⟨bs, rfl⟩ := ih hinner (by omega)
              exact ⟨.whileDo e bs ss, rfl⟩
          | «if» condition ifBlock =>
              rw [createStatement] at hnode
              obtain ⟨⟨c₂, v⟩, hv, hnode⟩ := Option.bind_eq_some_iff.mp hnode
              obtain ⟨⟨c₃, start, last⟩, hblock, -⟩ := Option.bind_eq_some_iff.mp hnode
              obtain ⟨e, rfl⟩ := exists_expression hv
              obtain ⟨body, rfl⟩ := exists_block hblock
              obtain ⟨inner, hinner, -⟩ := createBlock_eq_some.mp hblock
              simp only [AstNode.if.sizeOf_spec, AstNode.block.sizeOf_spec] at hn
              obtain ⟨bs, rfl⟩ := ih hinner (by omega)
              exact ⟨.ifThen e bs ss, rfl⟩
          | «return» => exact ⟨.ret ss, rfl⟩
          | declaration dataType assignment =>
              obtain ⟨op, varName, e, rfl⟩ := exists_declaration hnode
              exact ⟨.declare dataType op varName e ss, rfl⟩
          | number num => exact absurd rfl hignored
          | «variable» varName wild => exact absurd rfl hignored
          | block childs => exact absurd rfl hignored
          | function name returnType argumentCount childs => exact absurd rfl hignored

theorem createFunction_eq_some {creator : IrCreator} {f : AstNode} {r : IrCreator × ℕ} :
    irCreatorCreateFunction creator f = some r ↔
      ∃ name returnType body others inner,
        f = .function name returnType others.length (.block body :: others) ∧
        createStatements creator.enterBlock body = some inner ∧
        r = (creator.leaveBlock inner, creator.ctx.blockCount) := by
  constructor
  · intro h
    unfold irCreatorCreateFunction at h
    split at h
    · rename_i name returnType argumentCount childs
      obtain ⟨u, hcount, h⟩ := Option.bind_eq_some_iff.mp h
      obtain ⟨first, hfirst, h⟩ := Option.bind_eq_some_iff.mp h
      obtain ⟨⟨c', entry, last⟩, hblock, h⟩ := Option.bind_eq_some_iff.mp h
      obtain ⟨body, rfl⟩ := exists_block hblock
      obtain ⟨inner, hinner, hr⟩ := createBlock_eq_some.mp hblock
      cases hr
      cases h
      obtain ⟨others, rfl⟩ := List.head?_eq_some_iff.mp hfirst
      have hcount' : (AstNode.block body :: others).length = argumentCount + 1 := by
        by_contra hne
        rw [guard, if_neg hne] at hcount
        cases hcount
      rw [List.length_cons, Nat.add_right_cancel_iff] at hcount'
      subst hcount'
      exact ⟨name, returnType, body, others, inner, rfl, hinner, rfl⟩
    · cases h
  · rintro ⟨name, returnType, body, others, inner, rfl, hinner, rfl⟩
    have hblock := createBlock_eq_some.mpr ⟨inner, hinner, rfl⟩
    unfold irCreatorCreateFunction
    refine Option.bind_eq_some_iff.mpr ⟨(), if_pos rfl, ?_⟩
    exact Option.bind_eq_some_iff.mpr
      ⟨.block body, rfl, Option.bind_eq_some_iff.mpr ⟨_, hblock, rfl⟩⟩
