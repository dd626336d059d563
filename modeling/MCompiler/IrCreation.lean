/-
# IR creation (`ir_creation.h`, `ir_creation.c`)

The creator walks the syntax tree and appends instructions to its current block.  A failed
assertion, a node of the wrong type and the use of a null pointer are `none`.  The chain of
`block_info`s is the list of the variable maps from the inside out.
-/
import MCompiler.Ast
import MCompiler.Ir

/-- `struct variable`, of the creator. -/
structure CreatorVariable where
  rId : ℕ
  dataType : TokenType
  deriving DecidableEq

/-- `struct ir_creator`. -/
structure IrCreator where
  regCount : ℕ
  block : ℕ
  blockInfo : List (Range → Option CreatorVariable)
  ctx : Ir

/-- `convertDataType`, for the data types that a declaration may have. -/
def convertDataType : TokenType → DataType
  | .KW_INT64 => .int64
  | _ => .void

/-- `_findReg`: the variable maps are searched from the inside out. -/
def findReg : List (Range → Option CreatorVariable) → Range → Option CreatorVariable
  | [], _ => none
  | current :: parents, range =>
      match current range with
      | some var => some var
      | none => findReg parents range

/-- `_createReg`: the block may not have a variable of this name yet. -/
def createReg (creator : IrCreator) (range : Range) (dataType : TokenType) : Option IrCreator :=
  match creator.blockInfo with
  | [] => none
  | bInfo :: parents =>
      match bInfo range with
      | some _ => none
      | none => some { creator with
          blockInfo := Function.update bInfo range (some ⟨creator.regCount, dataType⟩) :: parents
          regCount := creator.regCount + 1 }

/-- The operator that `create_binary` chooses. -/
def binaryOperator : TokenType → Option BinaryOps
  | .PLUS => some .add
  | .MINUS => some .sub
  | .MUL => some .mul
  | .DIV => some .div
  | .GREATER => some .greater
  | .LESS_THAN => some .less
  | .GREATER_EQ => some .greaterEq
  | .LESS_EQ => some .lessEq
  | .EQUALS => some .equals
  | _ => none

/-- `block_insert` into the current block. -/
def IrCreator.insert (creator : IrCreator) (ctx : Ir) (inst : ℕ) : IrCreator :=
  { creator with ctx := blockInsert ctx creator.block inst }

/-- `create_value`, with `create_number`, `create_variable` and `create_binary`. -/
def createValue (creator : IrCreator) : AstNode → Option (IrCreator × Value)
  | .binaryExp op left right false => do
      let op ← binaryOperator op
      let (creator, left) ← createValue creator left
      let (creator, right) ← createValue creator right
      let (ctx, result) ← instNewBinary creator.ctx op left right
      return (creator.insert ctx result, .inst result)
  | .variable varName false => do
      let varInfo ← findReg creator.blockInfo varName
      let (ctx, loadVar) :=
        instNewLoadVar creator.ctx varInfo.rId (convertDataType varInfo.dataType)
      return (creator.insert ctx loadVar, .inst loadVar)
  | .number num =>
      let (ctx, result) := irConstantValue creator.ctx num
      some ({ creator with ctx := ctx }, .const result)
  | _ => none

/-- `create_assignment`. -/
def createAssignment (creator : IrCreator) (left right : AstNode) : Option IrCreator :=
  match left with
  | .variable varName false => do
      let var ← findReg creator.blockInfo varName
      let (creator, val) ← createValue creator right
      let (ctx, assign) ← instNewAssignVar creator.ctx var.rId val
      return creator.insert ctx assign
  | _ => none

mutual

/-- `create_statement`. -/
def createStatement (creator : IrCreator) : AstNode → Option IrCreator
  | .binaryExp op left right false => do
      guard (op = .ASSIGN)
      createAssignment creator left right
  | .binaryExp _ _ _ true => none
  | .if condition ifBlock => do
      let (creator, cond) ← createValue creator condition
      let (creator, bblock, last) ← createBlock creator ifBlock
      let (ctx, rest) := blockNew creator.ctx
      let (ctx, cjump) ← instNewJumpCond ctx bblock rest cond
      let creator := creator.insert ctx cjump
      -- when the block of the if is complete, jump to the rest
      let (ctx, jump) ← instNewJump creator.ctx rest
      return { creator with ctx := blockInsert ctx last jump, block := rest }
  | .while condition block => do
      let (ctx, head) := blockNew creator.ctx
      let (ctx, ejump) ← instNewJump ctx head
      let creator := creator.insert ctx ejump
      let (creator, body, _last) ← createBlock creator block
      -- the jump back to the head goes into the first block of the body
      let (ctx, jump) ← instNewJump creator.ctx head
      let (ctx, exit) := blockNew (blockInsert ctx body jump)
      let (creator, cond) ← createValue { creator with ctx := ctx, block := head } condition
      let (ctx, cjump) ← instNewJumpCond creator.ctx body exit cond
      return { creator.insert ctx cjump with block := exit }
  | .declaration dataType (.binaryExp _ (.variable varName false) right false) => do
      let creator ← createReg creator varName dataType
      createAssignment creator (.variable varName false) right
  | .declaration _ _ => none
  | .return =>
      let (ctx, returnInst) := instNewReturn creator.ctx
      some (creator.insert ctx returnInst)
  | .null => none
  | _ => some creator

/-- The loop over the statements of a block. -/
def createStatements (creator : IrCreator) : List AstNode → Option IrCreator
  | [] => some creator
  | child :: childs => do
      let creator ← createStatement creator child
      createStatements creator childs

/-- `create_block`: the first and the last basic block. -/
def createBlock (creator : IrCreator) : AstNode → Option (IrCreator × ℕ × ℕ)
  | .block childs => do
      let (ctx, bblock) := blockNew creator.ctx
      let inner ← createStatements { creator with
        ctx := ctx, block := bblock, blockInfo := (fun _ => none) :: creator.blockInfo } childs
      return ({ inner with block := creator.block, blockInfo := inner.blockInfo.tail },
        bblock, inner.block)
  | _ => none

end

/-- `ir_creator_init`; the current block is set by `create_block`. -/
def irCreatorInit (ctx : Ir) : IrCreator := ⟨0, 0, [], ctx⟩

/-- `ir_creator_createFunction`: the creator and the entry block. -/
def irCreatorCreateFunction (creator : IrCreator) : AstNode → Option (IrCreator × ℕ)
  | .function _ _ argumentCount childs => do
      guard (childs.length = argumentCount + 1)
      let (creator, entry, _) ← createBlock creator (← childs.head?)
      return (creator, entry)
  | _ => none
