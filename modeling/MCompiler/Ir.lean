/-
# The intermediate representation (`ir.h`, `ir.c`)

The objects of an `ir_context_t` are numbered in the order of their allocation, and a
pointer is the number of its object.  A `use_t` belongs to one slot of one instruction;
the list of the uses of a value holds these pairs in the order of the intrusive list.
Names of values, the parent of a block, unknown constants, arguments and function calls
have no part in what is modelled here and are left out; a return has no operands.
-/
import MCompiler.CInt
import Mathlib.Logic.Function.Basic

/-- `enum data_type`. -/
inductive DataType where
  | void | int64 | ptr | block
  deriving DecidableEq

/-- `enum binary_ops`. -/
inductive BinaryOps where
  | add | sub | mul | div | equals | less | greater | lessEq | greaterEq
  deriving DecidableEq

/-- A `value_t *`. -/
inductive Value where
  | inst (i : ℕ)
  | const (c : ℕ)
  | block (b : ℕ)
  deriving DecidableEq

/-- `enum instruction_type`, with the fields that the types have of their own. -/
inductive InstType where
  | phi
  | loadVar (rId : ℕ)
  | assignVar (rId : ℕ)
  | binary (op : BinaryOps)
  | jump
  | jumpCond
  | ret
  deriving DecidableEq

/-- The instructions with block operands, phis apart. -/
def InstType.isJump : InstType → Bool
  | .jump | .jumpCond => true
  | _ => false

/-- `instruction_t`; `uses` are the values of the operands, `none` for a use that is not
set yet. -/
structure Instruction where
  type : InstType
  dataType : DataType
  uses : List (Option Value)
  parent : ℕ
  deriving DecidableEq

/-- `use_t`: a slot of an instruction. -/
structure Use where
  inst : ℕ
  slot : ℕ
  deriving DecidableEq

/-- The objects of an `ir_context_t`: instructions, the instruction lists of blocks,
constants, the use list of every value, and how many objects of each kind there are. -/
structure Ir where
  insts : ℕ → Instruction
  blocks : ℕ → List ℕ
  consts : ℕ → Int64
  uses : Value → List Use
  instCount : ℕ
  blockCount : ℕ
  constCount : ℕ

namespace Ir

/-- The value in a slot. -/
def operand (ir : Ir) (u : Use) : Option Value := ((ir.insts u.inst).uses[u.slot]?).join

/-- `value->dataType`. -/
def dataType (ir : Ir) : Value → DataType
  | .inst i => (ir.insts i).dataType
  | .const _ => .int64
  | .block _ => .block

end Ir

/-! ## Creating objects -/

/-- `ir_context_init`. -/
def irContextInit : Ir where
  insts := fun _ => ⟨.ret, .void, [], 0⟩
  blocks := fun _ => []
  consts := fun _ => 0
  uses := fun _ => []
  instCount := 0
  blockCount := 0
  constCount := 0

/-- `ir_constant_value`. -/
def irConstantValue (ir : Ir) (value : Int64) : Ir × ℕ :=
  ({ ir with
      consts := Function.update ir.consts ir.constCount value
      uses := Function.update ir.uses (.const ir.constCount) []
      constCount := ir.constCount + 1 }, ir.constCount)

/-- `block_new`, taken to return the block. -/
def blockNew (ir : Ir) : Ir × ℕ :=
  ({ ir with
      blocks := Function.update ir.blocks ir.blockCount []
      uses := Function.update ir.uses (.block ir.blockCount) []
      blockCount := ir.blockCount + 1 }, ir.blockCount)

/-- `GEN_NEW_INST`: an instruction with `useCount` uses that are not set. -/
def instNew (ir : Ir) (type : InstType) (dataType : DataType) (useCount : ℕ) : Ir × ℕ :=
  ({ ir with
      insts := Function.update ir.insts ir.instCount
        ⟨type, dataType, List.replicate useCount none, 0⟩
      uses := Function.update ir.uses (.inst ir.instCount) []
      instCount := ir.instCount + 1 }, ir.instCount)

/-- The slot `u` with the value `value`. -/
def Ir.writeUse (ir : Ir) (u : Use) (value : Value) : Ir :=
  { ir with
    insts := Function.update ir.insts u.inst
      { ir.insts u.inst with uses := (ir.insts u.inst).uses.set u.slot (some value) } }

/-- `list_deattach` of a use from the list of `value`. -/
def Ir.deattachUse (ir : Ir) (value : Value) (u : Use) : Ir :=
  { ir with uses := Function.update ir.uses value ((ir.uses value).erase u) }

/-- `list_add` of a use to the list of `value`. -/
def Ir.addUse (ir : Ir) (value : Value) (u : Use) : Ir :=
  { ir with uses := Function.update ir.uses value (ir.uses value ++ [u]) }

/-- `inst_setUse`: the slot has to exist. -/
def instSetUse (ir : Ir) (inst useOffset : ℕ) (value : Value) : Option Ir :=
  let u : Use := ⟨inst, useOffset⟩
  match (ir.insts inst).uses[useOffset]? with
  | none => none
  | some none => some ((ir.addUse value u).writeUse u value)
  | some (some old) => some (((ir.deattachUse old u).addUse value u).writeUse u value)

/-- `inst_new_load_var`. -/
def instNewLoadVar (ir : Ir) (i : ℕ) (type : DataType) : Ir × ℕ := instNew ir (.loadVar i) type 0

/-- `inst_new_assign_var`. -/
def instNewAssignVar (ir : Ir) (i : ℕ) (value : Value) : Option (Ir × ℕ) := do
  let (ir, var) := instNew ir (.assignVar i) .void 1
  let ir ← instSetUse ir var 0 value
  return (ir, var)

/-- `inst_new_binary`: the operands have to have one data type. -/
def instNewBinary (ir : Ir) (op : BinaryOps) (a b : Value) : Option (Ir × ℕ) := do
  guard (ir.dataType a = ir.dataType b)
  let (ir, bin) := instNew ir (.binary op) (ir.dataType a) 2
  let ir ← instSetUse ir bin 0 a
  let ir ← instSetUse ir bin 1 b
  return (ir, bin)

/-- `inst_new_jump`. -/
def instNewJump (ir : Ir) (block : ℕ) : Option (Ir × ℕ) := do
  let (ir, jump) := instNew ir .jump .void 1
  let ir ← instSetUse ir jump 0 (.block block)
  return (ir, jump)

/-- `inst_new_jump_cond`. -/
def instNewJumpCond (ir : Ir) (a b : ℕ) (cond : Value) : Option (Ir × ℕ) := do
  let (ir, jump) := instNew ir .jumpCond .void 3
  let ir ← instSetUse ir jump 0 (.block a)
  let ir ← instSetUse ir jump 1 (.block b)
  let ir ← instSetUse ir jump 2 cond
  return (ir, jump)

/-- `inst_new_return`. -/
def instNewReturn (ir : Ir) : Ir × ℕ := instNew ir .ret .void 0

/-- `inst_new_phi`, for a phi that has no operands yet. -/
def instNewPhi (ir : Ir) (type : DataType) : Ir × ℕ := instNew ir .phi type 0

/-! ## Changing objects -/

/-- `inst_phi_insertValue`: a pair of a block and a value, unless the phi has it already. -/
def phiHasPair (block : ℕ) (value : Value) : List (Option Value) → Bool
  | b :: v :: uses => (b = some (.block block) ∧ v = some value) ∨ phiHasPair block value uses
  | _ => false

@[inherit_doc phiHasPair]
def instPhiInsertValue (ir : Ir) (phi block : ℕ) (value : Value) : Option Ir :=
  if phiHasPair block value (ir.insts phi).uses then some ir
  else do
    let useCount := (ir.insts phi).uses.length
    let ir := { ir with
      insts := Function.update ir.insts phi
        { ir.insts phi with uses := (ir.insts phi).uses ++ [none, none] } }
    let ir ← instSetUse ir phi useCount (.block block)
    instSetUse ir phi (useCount + 1) value

/-- The loop body of `value_replaceAllUses`. -/
def replaceUse (value replacement : Value) (ir : Ir) (u : Use) : Ir :=
  ((ir.deattachUse value u).addUse replacement u).writeUse u replacement

/-- `value_replaceAllUses`, for a replacement that is another value. -/
def valueReplaceAllUses (ir : Ir) (value replacement : Value) : Ir :=
  (ir.uses value).foldl (replaceUse value replacement) ir

/-- `value_hasUse`. -/
def valueHasUse (ir : Ir) (value : Value) : Bool := (ir.uses value).length ≠ 0

/-- `inst_remove`. -/
def instRemove (ir : Ir) (inst : ℕ) : Ir :=
  { ir with
    blocks := Function.update ir.blocks (ir.insts inst).parent
      ((ir.blocks (ir.insts inst).parent).erase inst) }

/-- The instruction `inst` with the parent `block`. -/
def Ir.setParent (ir : Ir) (inst block : ℕ) : Ir :=
  { ir with insts := Function.update ir.insts inst { ir.insts inst with parent := block } }

/-- `block_insert`. -/
def blockInsert (ir : Ir) (block inst : ℕ) : Ir :=
  { ir.setParent inst block with
    blocks := Function.update ir.blocks block (ir.blocks block ++ [inst]) }

/-- `block_insertTop`. -/
def blockInsertTop (ir : Ir) (block inst : ℕ) : Ir :=
  { ir.setParent inst block with
    blocks := Function.update ir.blocks block (inst :: ir.blocks block) }

/-! ## The control flow graph -/

/-- `block_lastInstruction`. -/
def blockLastInstruction (ir : Ir) (block : ℕ) : Option ℕ := (ir.blocks block).getLast?

/-- The block that an operand is. -/
def useBlock : Option Value → Option ℕ
  | some (.block b) => some b
  | _ => none

/-- The blocks that the `block_successor` iterator yields: the block operands of the last
instruction, if it is not a phi. -/
def blockSuccessors (ir : Ir) (block : ℕ) : List ℕ :=
  match blockLastInstruction ir block with
  | none => []
  | some inst =>
      match (ir.insts inst).type with
      | .phi => []
      | _ => (ir.insts inst).uses.filterMap useBlock

/-- The blocks that the `block_predecessor` iterator yields: the parents of the users of
the block. -/
def blockPredecessors (ir : Ir) (block : ℕ) : List ℕ :=
  (ir.uses (.block block)).map (fun u => (ir.insts u.inst).parent)
