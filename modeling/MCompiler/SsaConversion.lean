/-
# Conversion to SSA form (`ssa_conversion.c`)

`ssa_convert` has three steps: it collects the loads and assigns of every block, places phis
with a worklist for each variable, and renames along the dominator tree.

The objects that `variableMap` and `variableList` share are known by their key, the `int`
of the register.  The hash maps `regMap` and `phiMap` of a block hold the objects of its
lists, so that they are looked up there.  The arrays over the blocks have `elementCount`
elements; the index of a block outside them fails.  The recursion and the worklist loop get a
bound on their number of steps.
-/
import MCompiler.DomFrontiers

/-- `struct reg_info`; the top of the stack is the head. -/
structure RegInfo where
  rId : ℕ
  assigns : List ℕ := []
  valueStack : List Value := []
  deriving DecidableEq

/-- `struct phi_info`. -/
structure PhiInfo where
  rId : ℕ
  phiInst : ℕ
  deriving DecidableEq

/-- `struct reg_block_info`. -/
structure RegBlockInfo where
  rId : ℕ
  lastAssign : Option ℕ := none
  deriving DecidableEq

/-- `struct block_info`. -/
structure BlockInfo where
  regList : List RegBlockInfo := []
  phiList : List PhiInfo := []
  loadAssigns : List ℕ := []
  isRenamed : Bool := false
  deriving DecidableEq

/-- `variableMap` and `variableList`. -/
structure VariableMap where
  regs : ℤ → Option RegInfo
  list : List ℤ

/-- The index of a block in the arrays. -/
def blockNumber (doms : Dominators) (block : ℕ) : Option ℕ := do
  let number ← dominatorsGetNumber doms.nodeToNum block
  guard (number < doms.elementCount)
  return number

/-! ## Phis and registers of a block -/

/-- The phi that `phiMap` has for a register. -/
def BlockInfo.findPhi (bInfo : BlockInfo) (rId : ℕ) : Option PhiInfo :=
  bInfo.phiList.find? (fun phi => toInt phi.rId = toInt rId)

/-- `block_info_getOrCreatePhi`. -/
def blockInfoGetOrCreatePhi (ir : Ir) (bInfo : BlockInfo) (block rId : ℕ) (type : DataType) :
    Ir × BlockInfo × PhiInfo :=
  match bInfo.findPhi rId with
  | some phi => (ir, bInfo, phi)
  | none =>
      let (ir, phiInst) := instNewPhi ir type
      let phi : PhiInfo := ⟨rId, phiInst⟩
      (blockInsertTop ir block phiInst, { bInfo with phiList := bInfo.phiList ++ [phi] }, phi)

/-- `_getOrCreateRegInfo`, followed by `change` of the object. -/
def changeRegInfo (rId : ℕ) (change : RegBlockInfo → RegBlockInfo) :
    List RegBlockInfo → List RegBlockInfo
  | [] => [change ⟨rId, none⟩]
  | rInfo :: regList =>
      if toInt rInfo.rId = toInt rId then change rInfo :: regList
      else rInfo :: changeRegInfo rId change regList

/-! ## The value stacks -/

/-- `_getLastValueUnsafe`. -/
def getLastValueUnsafe (variableMap : VariableMap) (vId : ℕ) : Option Value :=
  (variableMap.regs (toInt vId)).bind fun rInfo => rInfo.valueStack.head?

/-- `_getLastValue`: the assertion that there is a value. -/
def getLastValue (variableMap : VariableMap) (vId : ℕ) : Option Value :=
  getLastValueUnsafe variableMap vId

/-- The reg_info of a key, changed. -/
def VariableMap.setReg (variableMap : VariableMap) (key : ℤ) (rInfo : RegInfo) : VariableMap :=
  { variableMap with regs := Function.update variableMap.regs key (some rInfo) }

/-- `_pushValue`. -/
def pushValue (variableMap : VariableMap) (vId : ℕ) (value : Value) : Option VariableMap :=
  (variableMap.regs (toInt vId)).map fun rInfo =>
    variableMap.setReg (toInt vId) { rInfo with valueStack := value :: rInfo.valueStack }

/-- `_popValue`: the stack must not be empty. -/
def popValue (variableMap : VariableMap) (vId : ℕ) : Option VariableMap := do
  let rInfo ← variableMap.regs (toInt vId)
  guard (rInfo.valueStack ≠ [])
  return variableMap.setReg (toInt vId) { rInfo with valueStack := rInfo.valueStack.tail }

/-! ## Renaming -/

/-- What `ssa_rename` changes. -/
structure RenameState where
  ir : Ir
  blockInfo : ℕ → BlockInfo
  variableMap : VariableMap

/-- The loop body for one load or assign. -/
def renameInst (s : RenameState) (inst : ℕ) : Option RenameState :=
  match (s.ir.insts inst).type with
  | .loadVar rId => do
      let lastValue ← getLastValue s.variableMap rId
      return { s with ir := instRemove (valueReplaceAllUses s.ir (.inst inst) lastValue) inst }
  | .assignVar rId => do
      let value ← s.ir.operand ⟨inst, 0⟩
      let variableMap ← pushValue s.variableMap rId value
      return { s with ir := instRemove s.ir inst, variableMap := variableMap }
  -- `assert(0)`
  | _ => none

/-- The loop body that gives a phi of a successor its value. -/
def pushPhi (variableMap : VariableMap) (current : ℕ) (ir : Ir) (phi : PhiInfo) : Option Ir :=
  match getLastValueUnsafe variableMap phi.rId with
  | none => some ir
  | some lastValue => instPhiInsertValue ir phi.phiInst current lastValue

/-- The loop body for one successor. -/
def pushSuccessor (doms : Dominators) (blockInfo : ℕ → BlockInfo) (variableMap : VariableMap)
    (current : ℕ) (ir : Ir) (sblock : ℕ) : Option Ir := do
  let bNumber ← blockNumber doms sblock
  (blockInfo bNumber).phiList.foldlM (pushPhi variableMap current) ir

/-- The loop body that pops the value of an assign. -/
def popInst (ir : Ir) (variableMap : VariableMap) (inst : ℕ) : Option VariableMap :=
  match (ir.insts inst).type with
  | .assignVar rId => popValue variableMap rId
  | _ => some variableMap

/-- `ssa_rename`. -/
def ssaRename (doms : Dominators) : ℕ → RenameState → ℕ → Option RenameState
  | 0, _, _ => none
  | fuel + 1, s, current => do
      let number ← blockNumber doms current
      let bInfo := s.blockInfo number
      if bInfo.isRenamed then return s
      let blockInfo := Function.update s.blockInfo number { bInfo with isRenamed := true }
      let variableMap ← bInfo.phiList.foldlM
        (fun variableMap phi => pushValue variableMap phi.rId (.inst phi.phiInst)) s.variableMap
      let s ← bInfo.loadAssigns.foldlM renameInst ⟨s.ir, blockInfo, variableMap⟩
      let ir ← (blockSuccessors s.ir current).foldlM
        (pushSuccessor doms s.blockInfo s.variableMap current) s.ir
      let s ← (← dominatorChilds doms current).foldlM (ssaRename doms fuel) { s with ir := ir }
      let variableMap ← bInfo.loadAssigns.foldlM (popInst s.ir) s.variableMap
      let variableMap ← bInfo.phiList.foldlM
        (fun variableMap phi => popValue variableMap phi.rId) variableMap
      return { s with variableMap := variableMap }

/-! ## Step 1: the loads and assigns -/

/-- The loop body for one instruction of a block. -/
def analyzeInst (ir : Ir) (bInfo : BlockInfo) (inst : ℕ) : BlockInfo :=
  match (ir.insts inst).type with
  | .loadVar rId =>
      { bInfo with
        regList := changeRegInfo rId id bInfo.regList
        loadAssigns := bInfo.loadAssigns ++ [inst] }
  | .assignVar rId =>
      { bInfo with
        regList := changeRegInfo rId (fun rInfo => { rInfo with lastAssign := some inst })
          bInfo.regList
        loadAssigns := bInfo.loadAssigns ++ [inst] }
  | _ => bInfo

/-- The information about a block before phis are placed. -/
def analyzeBlock (ir : Ir) (block : ℕ) : BlockInfo :=
  (ir.blocks block).foldl (analyzeInst ir) {}

/-- The loop body for one register of a block. -/
def registerReg (variableMap : VariableMap) (rBlockInfo : RegBlockInfo) : VariableMap :=
  let key := toInt rBlockInfo.rId
  let assign := rBlockInfo.lastAssign.toList
  match variableMap.regs key with
  | none =>
      { variableMap.setReg key { rId := rBlockInfo.rId, assigns := assign } with
        list := variableMap.list ++ [key] }
  | some rInfo => variableMap.setReg key { rInfo with assigns := rInfo.assigns ++ assign }

/-- The loop body for the block with the number `i`. -/
def analyzeStep (ir : Ir) (doms : Dominators) (s : (ℕ → BlockInfo) × VariableMap) (i : ℕ) :
    Option ((ℕ → BlockInfo) × VariableMap) := do
  let block ← doms.postorder[i]?
  let bInfo := analyzeBlock ir block
  return (Function.update s.1 i bInfo, bInfo.regList.foldl registerReg s.2)

/-- Step 1 of `ssa_convert`. -/
def analyzeBlocks (ir : Ir) (doms : Dominators) : Option ((ℕ → BlockInfo) × VariableMap) :=
  (List.range doms.elementCount).foldlM (analyzeStep ir doms)
    (fun _ => {}, ⟨fun _ => none, []⟩)

/-! ## Step 2: the phis -/

/-- What step 2 changes; the worklist holds what has not been looked at yet. -/
structure PlaceState where
  ir : Ir
  blockInfo : ℕ → BlockInfo
  lastIteration : ℕ → ℕ
  worklist : List (Value × ℕ) := []

/-- The loop body that puts an assignment on the worklist. -/
def placeAssign (doms : Dominators) (i : ℕ) (s : PlaceState) (assign : ℕ) :
    Option PlaceState := do
  let block := (s.ir.insts assign).parent
  let bId ← blockNumber doms block
  let value ← s.ir.operand ⟨assign, 0⟩
  return { s with
    lastIteration := Function.update s.lastIteration bId i
    worklist := s.worklist ++ [(value, block)] }

/-- The loop body for one block of a dominance frontier. -/
def placePhi (doms : Dominators) (i rId : ℕ) (type : DataType) (s : PlaceState) (dfBlock : ℕ) :
    Option PlaceState := do
  let bId ← blockNumber doms dfBlock
  let (ir, bInfo, phi) := blockInfoGetOrCreatePhi s.ir (s.blockInfo bId) dfBlock rId type
  let s := { s with ir := ir, blockInfo := Function.update s.blockInfo bId bInfo }
  if s.lastIteration bId < i then
    return { s with
      lastIteration := Function.update s.lastIteration bId i
      worklist := s.worklist ++ [(.inst phi.phiInst, dfBlock)] }
  else return s

/-- The loop over the worklist. -/
def placeLoop (doms : Dominators) (df : DomFrontiers) (i rId : ℕ) :
    ℕ → PlaceState → Option PlaceState
  | 0, _ => none
  | fuel + 1, s =>
      match s.worklist with
      | [] => some s
      | (value, block) :: worklist => do
          let type := s.ir.dataType value
          let s ← (domfrontiersGet df block).foldlM (placePhi doms i rId type)
            { s with worklist := worklist }
          placeLoop doms df i rId fuel s

/-- The loop body for the variable `i`. -/
def placeVariable (doms : Dominators) (df : DomFrontiers) (fuel : ℕ) (variableMap : VariableMap)
    (s : PlaceState) (i : ℕ) : Option PlaceState := do
  let var ← variableMap.regs (← variableMap.list[i]?)
  let s ← var.assigns.foldlM (placeAssign doms i) { s with worklist := [] }
  placeLoop doms df i var.rId fuel s

/-- Step 2 of `ssa_convert`. -/
def placePhis (doms : Dominators) (df : DomFrontiers) (fuel : ℕ) (ir : Ir)
    (blockInfo : ℕ → BlockInfo) (variableMap : VariableMap) : Option PlaceState :=
  (List.range variableMap.list.length).foldlM (placeVariable doms df fuel variableMap)
    { ir := ir, blockInfo := blockInfo, lastIteration := fun _ => 0 }

/-! ## The conversion -/

/-- The loop body that removes a phi without uses. -/
def removePhi (ir : Ir) (phi : PhiInfo) : Ir :=
  if valueHasUse ir (.inst phi.phiInst) then ir else instRemove ir phi.phiInst

/-- The last loop of `ssa_convert`. -/
def removePhis (blockInfo : ℕ → BlockInfo) (elementCount : ℕ) (ir : Ir) : Ir :=
  (List.range elementCount).foldl (fun ir i => (blockInfo i).phiList.foldl removePhi ir) ir

/-- `ssa_convert`, for the function with the block `entry`. -/
def ssaConvert (doms : Dominators) (df : DomFrontiers) (fuel : ℕ) (ir : Ir) (entry : ℕ) :
    Option Ir := do
  let (blockInfo, variableMap) ← analyzeBlocks ir doms
  let placed ← placePhis doms df fuel ir blockInfo variableMap
  let renamed ← ssaRename doms fuel ⟨placed.ir, placed.blockInfo, variableMap⟩ entry
  return removePhis renamed.blockInfo doms.elementCount renamed.ir
