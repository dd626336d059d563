/-
# The conversion and the ids of the registers

The conversion knows a register only by its key, the `int` of its id.  `ssaConvert_mapRegs` :
other ids with the same keys change nothing but the ids in the result.  So what holds for
32-bit ids holds for all.
-/
import MCompiler.Lib.Loops
import MCompiler.SsaStored

section MapRegs

variable (f : ℕ → ℕ)

/-! ## Other ids -/

/-- An instruction type with other register ids. -/
def InstType.mapRegs : InstType → InstType
  | .loadVar rId => .loadVar (f rId)
  | .assignVar rId => .assignVar (f rId)
  | type => type

/-- An instruction with other register ids. -/
def Instruction.mapRegs (inst : Instruction) : Instruction :=
  { inst with type := inst.type.mapRegs f }

/-- A function with other register ids. -/
def Ir.mapRegs (ir : Ir) : Ir := { ir with insts := Instruction.mapRegs f ∘ ir.insts }

@[inherit_doc Ir.mapRegs]
def RegInfo.mapRegs (rInfo : RegInfo) : RegInfo := { rInfo with rId := f rInfo.rId }

@[inherit_doc Ir.mapRegs]
def PhiInfo.mapRegs (phi : PhiInfo) : PhiInfo := { phi with rId := f phi.rId }

@[inherit_doc Ir.mapRegs]
def RegBlockInfo.mapRegs (rInfo : RegBlockInfo) : RegBlockInfo :=
  { rInfo with rId := f rInfo.rId }

@[inherit_doc Ir.mapRegs]
def BlockInfo.mapRegs (bInfo : BlockInfo) : BlockInfo :=
  { bInfo with
    regList := bInfo.regList.map (RegBlockInfo.mapRegs f)
    phiList := bInfo.phiList.map (PhiInfo.mapRegs f) }

@[inherit_doc Ir.mapRegs]
def VariableMap.mapRegs (vm : VariableMap) : VariableMap :=
  { vm with regs := Option.map (RegInfo.mapRegs f) ∘ vm.regs }

@[inherit_doc Ir.mapRegs]
def RenameState.mapRegs (s : RenameState) : RenameState :=
  ⟨s.ir.mapRegs f, BlockInfo.mapRegs f ∘ s.blockInfo, s.variableMap.mapRegs f⟩

@[inherit_doc Ir.mapRegs]
def PlaceState.mapRegs (s : PlaceState) : PlaceState :=
  { s with ir := s.ir.mapRegs f, blockInfo := BlockInfo.mapRegs f ∘ s.blockInfo }

/-! ## The heap -/

variable {f} (ir : Ir)

@[simp] theorem mapRegs_insts (i : ℕ) : (ir.mapRegs f).insts i = (ir.insts i).mapRegs f := rfl

@[simp] theorem mapRegs_operand (u : Use) : (ir.mapRegs f).operand u = ir.operand u := rfl

@[simp] theorem mapRegs_dataType (v : Value) : (ir.mapRegs f).dataType v = ir.dataType v := by
  cases v <;> rfl

theorem mapRegs_update (i : ℕ) (inst : Instruction) :
    { ir.mapRegs f with insts := Function.update (ir.mapRegs f).insts i (inst.mapRegs f) } =
      ({ ir with insts := Function.update ir.insts i inst } : Ir).mapRegs f := by
  unfold Ir.mapRegs
  rw [Function.comp_update]

theorem mapRegs_writeUse (u : Use) (v : Value) :
    (ir.mapRegs f).writeUse u v = (ir.writeUse u v).mapRegs f :=
  mapRegs_update ir u.inst
    { ir.insts u.inst with uses := (ir.insts u.inst).uses.set u.slot (some v) }

theorem mapRegs_setParent (i b : ℕ) :
    (ir.mapRegs f).setParent i b = (ir.setParent i b).mapRegs f :=
  mapRegs_update ir i { ir.insts i with parent := b }

theorem mapRegs_replaceUse (v w : Value) (u : Use) :
    replaceUse v w (ir.mapRegs f) u = (replaceUse v w ir u).mapRegs f :=
  mapRegs_writeUse ((ir.deattachUse v u).addUse w u) u w

theorem mapRegs_valueReplaceAllUses (v w : Value) :
    valueReplaceAllUses (ir.mapRegs f) v w = (valueReplaceAllUses ir v w).mapRegs f :=
  List.foldl_hom (Ir.mapRegs f) fun ir u => mapRegs_replaceUse ir v w u

theorem mapRegs_instSetUse (i k : ℕ) (v : Value) :
    instSetUse (ir.mapRegs f) i k v = (instSetUse ir i k v).map (Ir.mapRegs f) := by
  have huses : ((ir.mapRegs f).insts i).uses = (ir.insts i).uses := rfl
  unfold instSetUse
  rw [huses]
  cases (ir.insts i).uses[k]? with
  | none => rfl
  | some o =>
      cases o with
      | none => exact congrArg some (mapRegs_writeUse (ir.addUse v ⟨i, k⟩) ⟨i, k⟩ v)
      | some old =>
          exact congrArg some
            (mapRegs_writeUse ((ir.deattachUse old ⟨i, k⟩).addUse v ⟨i, k⟩) ⟨i, k⟩ v)

theorem mapRegs_instPhiInsertValue (phi block : ℕ) (v : Value) :
    instPhiInsertValue (ir.mapRegs f) phi block v =
      (instPhiInsertValue ir phi block v).map (Ir.mapRegs f) := by
  unfold instPhiInsertValue
  show (if phiHasPair block v (ir.insts phi).uses then _ else _) = _
  split
  · rfl
  · have hgrow := mapRegs_update (f := f) ir phi
      { ir.insts phi with uses := (ir.insts phi).uses ++ [none, none] }
    refine (congrArg (fun grown => (instSetUse grown phi (ir.insts phi).uses.length
      (.block block)).bind fun ir' => instSetUse ir' phi ((ir.insts phi).uses.length + 1) v)
        hgrow).trans ?_
    rw [mapRegs_instSetUse, Option.bind_map]
    show _ = Option.map _ (Option.bind _ _)
    rw [Option.map_bind]
    congr 1
    funext ir'
    exact mapRegs_instSetUse ir' phi _ v

theorem mapRegs_blockSuccessors (b : ℕ) :
    blockSuccessors (ir.mapRegs f) b = blockSuccessors ir b := by
  have hlast : blockLastInstruction (ir.mapRegs f) b = blockLastInstruction ir b := rfl
  unfold blockSuccessors
  rw [hlast]
  cases blockLastInstruction ir b with
  | none => rfl
  | some i =>
      have htype : ((ir.mapRegs f).insts i).type = (ir.insts i).type.mapRegs f := rfl
      dsimp only
      rw [htype]
      cases (ir.insts i).type <;> rfl

theorem mapRegs_instNewPhi (type : DataType) :
    instNewPhi (ir.mapRegs f) type = ((instNewPhi ir type).1.mapRegs f, ir.instCount) := by
  have hnew := mapRegs_update (f := f) ir ir.instCount ⟨.phi, type, [], 0⟩
  exact congrArg (fun new : Ir => ({ new with
    uses := Function.update ir.uses (.inst ir.instCount) []
    instCount := ir.instCount + 1 }, ir.instCount)) hnew

theorem mapRegs_blockInsertTop (b i : ℕ) :
    blockInsertTop (ir.mapRegs f) b i = (blockInsertTop ir b i).mapRegs f :=
  congrArg (fun new : Ir => { new with
    blocks := Function.update ir.blocks b (i :: ir.blocks b) }) (mapRegs_setParent ir i b)

/-! ## The maps of the conversion -/

variable (hf : ∀ a, toInt (f a : ℤ) = toInt (a : ℤ))

theorem mapRegs_setReg (vm : VariableMap) (key : ℤ) (rInfo : RegInfo) :
    (vm.mapRegs f).setReg key (rInfo.mapRegs f) = (vm.setReg key rInfo).mapRegs f := by
  have h : Function.update (Option.map (RegInfo.mapRegs f) ∘ vm.regs) key
      (some (rInfo.mapRegs f)) =
      Option.map (RegInfo.mapRegs f) ∘ Function.update vm.regs key (some rInfo) := by
    rw [Function.comp_update]
    rfl
  unfold VariableMap.setReg VariableMap.mapRegs
  dsimp only
  rw [h]

include hf

theorem mapRegs_findPhi (bInfo : BlockInfo) (rId : ℕ) :
    (bInfo.mapRegs f).findPhi (f rId) = (bInfo.findPhi rId).map (PhiInfo.mapRegs f) := by
  -- the search looks at the keys only
  have hfind : ∀ key : ℕ → ℤ, (∀ a, key (f a) = key a) →
      (bInfo.phiList.map (PhiInfo.mapRegs f)).find? (fun phi => key phi.rId = key (f rId)) =
        (bInfo.phiList.find? fun phi => key phi.rId = key rId).map (PhiInfo.mapRegs f) := by
    intro key hkey
    rw [List.find?_map, hkey]
    congr 2
    funext phi
    exact congrArg (fun k => decide (k = key rId)) (hkey phi.rId)
  exact hfind (fun a => toInt a) hf

theorem mapRegs_getOrCreatePhi (bInfo : BlockInfo) (block rId : ℕ) (type : DataType) :
    blockInfoGetOrCreatePhi (ir.mapRegs f) (bInfo.mapRegs f) block (f rId) type =
      let r := blockInfoGetOrCreatePhi ir bInfo block rId type
      (r.1.mapRegs f, r.2.1.mapRegs f, r.2.2.mapRegs f) := by
  unfold blockInfoGetOrCreatePhi
  rw [mapRegs_findPhi hf]
  cases bInfo.findPhi rId with
  | some phi => rfl
  | none =>
      show (let r := instNewPhi (ir.mapRegs f) type
        (blockInsertTop r.1 block r.2, _, _)) = _
      rw [mapRegs_instNewPhi]
      dsimp only
      rw [mapRegs_blockInsertTop]
      unfold BlockInfo.mapRegs
      dsimp only
      rw [List.map_append]
      rfl

theorem mapRegs_changeRegInfo (change : RegBlockInfo → RegBlockInfo)
    (hchange : ∀ e, change (RegBlockInfo.mapRegs f e) = (change e).mapRegs f) (rId : ℕ)
    (l : List RegBlockInfo) :
    changeRegInfo (f rId) change (l.map (RegBlockInfo.mapRegs f)) =
      (changeRegInfo rId change l).map (RegBlockInfo.mapRegs f) := by
  induction l with
  | nil => exact congrArg (fun e => [e]) (hchange ⟨rId, none⟩)
  | cons e l ih =>
      rw [List.map_cons, changeRegInfo, changeRegInfo]
      show (if toInt (f e.rId : ℤ) = toInt (f rId : ℤ) then _ else _) = _
      rw [hf, hf, apply_ite (List.map (RegBlockInfo.mapRegs f)), List.map_cons, List.map_cons, ih,
        hchange]

theorem mapRegs_analyzeInst (bInfo : BlockInfo) (i : ℕ) :
    analyzeInst (ir.mapRegs f) (bInfo.mapRegs f) i = (analyzeInst ir bInfo i).mapRegs f := by
  unfold analyzeInst
  show (match (ir.insts i).type.mapRegs f with
    | .loadVar rId => _
    | .assignVar rId => _
    | _ => _) = _
  cases (ir.insts i).type with
  | loadVar rId =>
      have hlist := mapRegs_changeRegInfo hf id (fun e => rfl) rId bInfo.regList
      exact congrArg (fun l => ({ bInfo.mapRegs f with
        regList := l
        loadAssigns := bInfo.loadAssigns ++ [i] } : BlockInfo)) hlist
  | assignVar rId =>
      have hlist := mapRegs_changeRegInfo hf
        (fun rInfo => { rInfo with lastAssign := some i }) (fun e => rfl) rId bInfo.regList
      exact congrArg (fun l => ({ bInfo.mapRegs f with
        regList := l
        loadAssigns := bInfo.loadAssigns ++ [i] } : BlockInfo)) hlist
  | _ => rfl

theorem mapRegs_registerReg (vm : VariableMap) (e : RegBlockInfo) :
    registerReg (vm.mapRegs f) (e.mapRegs f) = (registerReg vm e).mapRegs f := by
  have hreg : ∀ key, (vm.mapRegs f).regs key = (vm.regs key).map (RegInfo.mapRegs f) :=
    fun _ => rfl
  unfold registerReg
  dsimp only [RegBlockInfo.mapRegs]
  rw [hf, hreg]
  generalize toInt (e.rId : ℤ) = key
  cases vm.regs key with
  | none =>
      exact congrArg (fun new : VariableMap => { new with list := vm.list ++ [key] })
        (mapRegs_setReg vm key { rId := e.rId, assigns := e.lastAssign.toList })
  | some rInfo =>
      exact mapRegs_setReg vm key { rInfo with assigns := rInfo.assigns ++ e.lastAssign.toList }

/-! ## Step 1 -/

theorem mapRegs_analyzeBlock (b : ℕ) :
    analyzeBlock (ir.mapRegs f) b = (analyzeBlock ir b).mapRegs f := by
  show List.foldl (analyzeInst (ir.mapRegs f)) (({} : BlockInfo).mapRegs f) (ir.blocks b) = _
  exact List.foldl_hom (BlockInfo.mapRegs f) fun bInfo i => mapRegs_analyzeInst ir hf bInfo i

theorem mapRegs_registerRegs (vm : VariableMap) (l : List RegBlockInfo) :
    (l.map (RegBlockInfo.mapRegs f)).foldl registerReg (vm.mapRegs f) =
      (l.foldl registerReg vm).mapRegs f := by
  rw [List.foldl_map]
  exact List.foldl_hom (VariableMap.mapRegs f) fun vm e => mapRegs_registerReg hf vm e

/-- The state of step 1 with other ids. -/
theorem mapRegs_analyzeBlocks (doms : Dominators) :
    analyzeBlocks (ir.mapRegs f) doms = (analyzeBlocks ir doms).map
      fun s => (BlockInfo.mapRegs f ∘ s.1, s.2.mapRegs f) := by
  refine Loop.foldlM_hom (fun s : (ℕ → BlockInfo) × VariableMap =>
    (BlockInfo.mapRegs f ∘ s.1, s.2.mapRegs f)) (fun s i => ?_) _ (fun _ => {}, ⟨fun _ => none, []⟩)
  unfold analyzeStep
  show (doms.postorder[i]?).bind _ = ((doms.postorder[i]?).bind _).map _
  cases doms.postorder[i]? with
  | none => rfl
  | some b =>
      dsimp only [Option.bind_some]
      rw [mapRegs_analyzeBlock ir hf]
      show some (_, _) = some (_, _)
      rw [Function.comp_update]
      congr 2
      exact mapRegs_registerRegs hf s.2 (analyzeBlock ir b).regList

/-! ## Step 2 -/

omit hf in
theorem mapRegs_placeAssign (doms : Dominators) (i : ℕ) (s : PlaceState) (assign : ℕ) :
    placeAssign doms i (s.mapRegs f) assign =
      (placeAssign doms i s assign).map (PlaceState.mapRegs f) := by
  unfold placeAssign
  show (blockNumber doms (s.ir.insts assign).parent).bind _ =
    ((blockNumber doms (s.ir.insts assign).parent).bind _).map _
  cases blockNumber doms (s.ir.insts assign).parent with
  | none => rfl
  | some bId =>
      show (s.ir.operand ⟨assign, 0⟩).bind _ = ((s.ir.operand ⟨assign, 0⟩).bind _).map _
      cases s.ir.operand ⟨assign, 0⟩ <;> rfl

theorem mapRegs_placePhi (doms : Dominators) (i rId : ℕ) (type : DataType) (s : PlaceState)
    (dfBlock : ℕ) :
    placePhi doms i (f rId) type (s.mapRegs f) dfBlock =
      (placePhi doms i rId type s dfBlock).map (PlaceState.mapRegs f) := by
  unfold placePhi
  show (blockNumber doms dfBlock).bind _ = ((blockNumber doms dfBlock).bind _).map _
  cases blockNumber doms dfBlock with
  | none => rfl
  | some bId =>
      dsimp only [Option.bind_some]
      have hphi := mapRegs_getOrCreatePhi s.ir hf (s.blockInfo bId) dfBlock rId type
      have hupdate := fun bInfo : BlockInfo =>
        Function.comp_update (BlockInfo.mapRegs f) s.blockInfo bId bInfo
      rw [show blockInfoGetOrCreatePhi (s.mapRegs f).ir ((s.mapRegs f).blockInfo bId) dfBlock
        (f rId) type = _ from hphi]
      dsimp only
      rw [apply_ite (Option.map (PlaceState.mapRegs f))]
      congr 1
      · show some _ = some _
        unfold PlaceState.mapRegs
        dsimp only
        rw [hupdate]
        rfl
      · show some _ = some _
        unfold PlaceState.mapRegs
        dsimp only
        rw [hupdate]

theorem mapRegs_placeLoop (doms : Dominators) (df : DomFrontiers) (i rId fuel : ℕ) (s : PlaceState) :
    placeLoop doms df i (f rId) fuel (s.mapRegs f) =
      (placeLoop doms df i rId fuel s).map (PlaceState.mapRegs f) := by
  induction fuel generalizing s with
  | zero => rfl
  | succ fuel ih =>
      have hworklist : (s.mapRegs f).worklist = s.worklist := rfl
      unfold placeLoop
      rw [hworklist]
      cases s.worklist with
      | nil => rfl
      | cons e worklist =>
          obtain ⟨value, block⟩ := e
          dsimp only
          show (List.foldlM (placePhi doms i (f rId) ((s.ir.mapRegs f).dataType value))
            (({ s with worklist := worklist } : PlaceState).mapRegs f)
              (domfrontiersGet df block)).bind _ = (Option.bind _ _).map _
          rw [mapRegs_dataType, Loop.foldlM_hom (PlaceState.mapRegs f)
            (mapRegs_placePhi hf doms i rId (s.ir.dataType value)), Option.bind_map, Option.map_bind]
          congr 1
          funext s'
          exact ih s'

theorem mapRegs_placeVariable (doms : Dominators) (df : DomFrontiers) (fuel : ℕ)
    (vm : VariableMap) (s : PlaceState) (i : ℕ) :
    placeVariable doms df fuel (vm.mapRegs f) (s.mapRegs f) i =
      (placeVariable doms df fuel vm s i).map (PlaceState.mapRegs f) := by
  unfold placeVariable
  show (vm.list[i]?).bind _ = ((vm.list[i]?).bind _).map _
  cases vm.list[i]? with
  | none => rfl
  | some key =>
      show ((vm.regs key).map (RegInfo.mapRegs f)).bind _ = ((vm.regs key).bind _).map _
      cases vm.regs key with
      | none => rfl
      | some var =>
          show (List.foldlM (placeAssign doms i) (({ s with worklist := [] } : PlaceState).mapRegs f)
            var.assigns).bind _ = ((List.foldlM (placeAssign doms i) { s with worklist := [] }
              var.assigns).bind _).map _
          rw [Loop.foldlM_hom (PlaceState.mapRegs f) (mapRegs_placeAssign doms i), Option.bind_map,
            Option.map_bind]
          congr 1
          funext s'
          exact mapRegs_placeLoop hf doms df i var.rId fuel s'

theorem mapRegs_placePhis (doms : Dominators) (df : DomFrontiers) (fuel : ℕ)
    (blockInfo : ℕ → BlockInfo) (vm : VariableMap) :
    placePhis doms df fuel (ir.mapRegs f) (BlockInfo.mapRegs f ∘ blockInfo) (vm.mapRegs f) =
      (placePhis doms df fuel ir blockInfo vm).map (PlaceState.mapRegs f) :=
  Loop.foldlM_hom (PlaceState.mapRegs f) (mapRegs_placeVariable hf doms df fuel vm) _
    { ir := ir, blockInfo := blockInfo, lastIteration := fun _ => 0 }

/-! ## Renaming -/

theorem mapRegs_getLastValueUnsafe (vm : VariableMap) (vId : ℕ) :
    getLastValueUnsafe (vm.mapRegs f) (f vId) = getLastValueUnsafe vm vId := by
  unfold getLastValueUnsafe
  rw [hf]
  generalize toInt (vId : ℤ) = key
  show ((vm.regs key).map (RegInfo.mapRegs f)).bind _ = _
  cases vm.regs key <;> rfl

theorem mapRegs_pushValue (vm : VariableMap) (vId : ℕ) (v : Value) :
    pushValue (vm.mapRegs f) (f vId) v = (pushValue vm vId v).map (VariableMap.mapRegs f) := by
  unfold pushValue
  rw [hf]
  generalize toInt (vId : ℤ) = key
  show ((vm.regs key).map (RegInfo.mapRegs f)).map _ = _
  cases vm.regs key with
  | none => rfl
  | some rInfo =>
      exact congrArg some (mapRegs_setReg vm key { rInfo with valueStack := v :: rInfo.valueStack })

theorem mapRegs_popValue (vm : VariableMap) (vId : ℕ) :
    popValue (vm.mapRegs f) (f vId) = (popValue vm vId).map (VariableMap.mapRegs f) := by
  unfold popValue
  rw [hf]
  generalize toInt (vId : ℤ) = key
  show ((vm.regs key).map (RegInfo.mapRegs f)).bind _ = ((vm.regs key).bind _).map _
  cases vm.regs key with
  | none => rfl
  | some rInfo =>
      show (guard (rInfo.valueStack ≠ []) : Option Unit).bind _ =
        ((guard (rInfo.valueStack ≠ []) : Option Unit).bind _).map _
      by_cases hstack : rInfo.valueStack = []
      · simp [guard, hstack]
      · simp only [guard, hstack, ne_eq, not_false_eq_true, if_true]
        exact congrArg some (mapRegs_setReg vm key { rInfo with valueStack := rInfo.valueStack.tail })

theorem mapRegs_renameInst (s : RenameState) (i : ℕ) :
    renameInst (s.mapRegs f) i = (renameInst s i).map (RenameState.mapRegs f) := by
  unfold renameInst
  show (match (s.ir.insts i).type.mapRegs f with
    | .loadVar rId => _
    | .assignVar rId => _
    | _ => none) = _
  cases (s.ir.insts i).type with
  | loadVar rId =>
      show (getLastValueUnsafe (s.variableMap.mapRegs f) (f rId)).bind _ =
        ((getLastValueUnsafe s.variableMap rId).bind _).map _
      rw [mapRegs_getLastValueUnsafe hf]
      cases getLastValueUnsafe s.variableMap rId with
      | none => rfl
      | some v =>
          exact congrArg (fun new => some (⟨instRemove new i, BlockInfo.mapRegs f ∘ s.blockInfo,
            s.variableMap.mapRegs f⟩ : RenameState)) (mapRegs_valueReplaceAllUses s.ir (.inst i) v)
  | assignVar rId =>
      show (s.ir.operand ⟨i, 0⟩).bind _ = ((s.ir.operand ⟨i, 0⟩).bind _).map _
      cases s.ir.operand ⟨i, 0⟩ with
      | none => rfl
      | some v =>
          show (pushValue (s.variableMap.mapRegs f) (f rId) v).bind _ =
            ((pushValue s.variableMap rId v).bind _).map _
          rw [mapRegs_pushValue hf]
          cases pushValue s.variableMap rId v <;> rfl
  | _ => rfl

theorem mapRegs_pushPhis (vm : VariableMap) (current : ℕ) (l : List PhiInfo) :
    (l.map (PhiInfo.mapRegs f)).foldlM (pushPhi (vm.mapRegs f) current) (ir.mapRegs f) =
      (l.foldlM (pushPhi vm current) ir).map (Ir.mapRegs f) := by
  rw [List.foldlM_map]
  refine Loop.foldlM_hom (Ir.mapRegs f) (fun ir phi => ?_) l ir
  have hreg : (PhiInfo.mapRegs f phi).rId = f phi.rId := rfl
  unfold pushPhi
  rw [hreg, mapRegs_getLastValueUnsafe hf]
  cases getLastValueUnsafe vm phi.rId with
  | none => rfl
  | some v => exact mapRegs_instPhiInsertValue ir phi.phiInst current v

theorem mapRegs_pushSuccessor (doms : Dominators) (blockInfo : ℕ → BlockInfo) (vm : VariableMap)
    (current sblock : ℕ) :
    pushSuccessor doms (BlockInfo.mapRegs f ∘ blockInfo) (vm.mapRegs f) current (ir.mapRegs f) sblock =
      (pushSuccessor doms blockInfo vm current ir sblock).map (Ir.mapRegs f) := by
  unfold pushSuccessor
  show (blockNumber doms sblock).bind _ = ((blockNumber doms sblock).bind _).map _
  cases blockNumber doms sblock with
  | none => rfl
  | some n => exact mapRegs_pushPhis ir hf vm current (blockInfo n).phiList

theorem mapRegs_popInst (vm : VariableMap) (i : ℕ) :
    popInst (ir.mapRegs f) (vm.mapRegs f) i = (popInst ir vm i).map (VariableMap.mapRegs f) := by
  have htype : ((ir.mapRegs f).insts i).type = (ir.insts i).type.mapRegs f := rfl
  unfold popInst
  rw [htype]
  cases (ir.insts i).type with
  | assignVar rId => exact mapRegs_popValue hf vm rId
  | _ => rfl

/-- The recursion, with pushes and renaming steps that look at the keys only. -/
theorem mapRegs_renameWalk {push : VariableMap → ℕ → Value → Option VariableMap}
    (hpushes : ∀ vm vId v, push (vm.mapRegs f) (f vId) v = (push vm vId v).map (VariableMap.mapRegs f))
    {rename : RenameState → ℕ → Option RenameState}
    (hrename : ∀ s i, rename (s.mapRegs f) i = (rename s i).map (RenameState.mapRegs f))
    (doms : Dominators) (fuel : ℕ) (s : RenameState) (current : ℕ) :
    renameWalk push rename doms fuel (s.mapRegs f) current =
      (renameWalk push rename doms fuel s current).map (RenameState.mapRegs f) := by
  induction fuel generalizing s current with
  | zero => rfl
  | succ fuel ih =>
      rw [renameWalk, renameWalk]
      show (blockNumber doms current).bind _ = ((blockNumber doms current).bind _).map _
      cases blockNumber doms current with
      | none => rfl
      | some n =>
          dsimp only [Option.bind_some]
          have hrenamed : ((s.mapRegs f).blockInfo n).isRenamed = (s.blockInfo n).isRenamed := rfl
          rw [hrenamed, apply_ite (Option.map (RenameState.mapRegs f))]
          congr 1
          -- the pushes of the phis
          have hpush : ((s.blockInfo n).phiList.map (PhiInfo.mapRegs f)).foldlM
              (fun vm phi => push vm phi.rId (.inst phi.phiInst)) (s.variableMap.mapRegs f) =
              ((s.blockInfo n).phiList.foldlM
                (fun vm phi => push vm phi.rId (.inst phi.phiInst)) s.variableMap).map
                  (VariableMap.mapRegs f) := by
            rw [List.foldlM_map]
            exact Loop.foldlM_hom (VariableMap.mapRegs f)
              (fun vm phi => hpushes vm phi.rId (.inst phi.phiInst)) _ _
          have hpop : ∀ vm : VariableMap, ((s.blockInfo n).phiList.map (PhiInfo.mapRegs f)).foldlM
              (fun vm phi => popValue vm phi.rId) (vm.mapRegs f) =
              ((s.blockInfo n).phiList.foldlM (fun vm phi => popValue vm phi.rId) vm).map
                (VariableMap.mapRegs f) := by
            intro vm
            rw [List.foldlM_map]
            exact Loop.foldlM_hom (VariableMap.mapRegs f)
              (fun vm phi => mapRegs_popValue hf vm phi.rId) _ _
          show Option.bind (List.foldlM _ (s.variableMap.mapRegs f)
            ((s.blockInfo n).phiList.map (PhiInfo.mapRegs f))) _ =
              (Option.bind (List.foldlM _ s.variableMap (s.blockInfo n).phiList) _).map _
          rw [hpush, Option.bind_map, Option.map_bind]
          congr 1
          funext vm
          have hstate : (⟨s.ir.mapRegs f, Function.update (BlockInfo.mapRegs f ∘ s.blockInfo) n
              { (s.blockInfo n).mapRegs f with isRenamed := true }, vm.mapRegs f⟩ : RenameState) =
              RenameState.mapRegs f ⟨s.ir, Function.update s.blockInfo n
                { s.blockInfo n with isRenamed := true }, vm⟩ := by
            unfold RenameState.mapRegs
            rw [Function.comp_update]
            rfl
          show (List.foldlM rename (⟨s.ir.mapRegs f, Function.update (BlockInfo.mapRegs f ∘
            s.blockInfo) n { (s.blockInfo n).mapRegs f with isRenamed := true }, vm.mapRegs f⟩ :
              RenameState) (s.blockInfo n).loadAssigns).bind _ =
            ((List.foldlM rename ⟨s.ir, Function.update s.blockInfo n
              { s.blockInfo n with isRenamed := true }, vm⟩ (s.blockInfo n).loadAssigns).bind _).map _
          rw [hstate, Loop.foldlM_hom (RenameState.mapRegs f) hrename,
            Option.bind_map, Option.map_bind]
          congr 1
          funext s₁
          show (List.foldlM (pushSuccessor doms (BlockInfo.mapRegs f ∘ s₁.blockInfo)
            (s₁.variableMap.mapRegs f) current) (s₁.ir.mapRegs f)
              (blockSuccessors (s₁.ir.mapRegs f) current)).bind _ =
            ((List.foldlM (pushSuccessor doms s₁.blockInfo s₁.variableMap current) s₁.ir
              (blockSuccessors s₁.ir current)).bind _).map _
          rw [mapRegs_blockSuccessors, Loop.foldlM_hom (Ir.mapRegs f) (fun ir b =>
            mapRegs_pushSuccessor ir hf doms s₁.blockInfo s₁.variableMap current b),
              Option.bind_map, Option.map_bind]
          congr 1
          funext ir
          show (dominatorChilds doms current).bind _ = ((dominatorChilds doms current).bind _).map _
          rw [Option.map_bind]
          congr 1
          funext childs
          show (List.foldlM (renameWalk push rename doms fuel)
              (({ s₁ with ir := ir } : RenameState).mapRegs f) childs).bind _ =
            ((List.foldlM (renameWalk push rename doms fuel) { s₁ with ir := ir } childs).bind
              _).map _
          rw [Loop.foldlM_hom (RenameState.mapRegs f) ih, Option.bind_map, Option.map_bind]
          congr 1
          funext s₂
          show (List.foldlM (popInst (s₂.ir.mapRegs f)) (s₂.variableMap.mapRegs f)
            (s.blockInfo n).loadAssigns).bind _ = ((List.foldlM (popInst s₂.ir) s₂.variableMap
              (s.blockInfo n).loadAssigns).bind _).map _
          rw [Loop.foldlM_hom (VariableMap.mapRegs f) (mapRegs_popInst s₂.ir hf), Option.bind_map,
            Option.map_bind]
          congr 1
          funext vm₂
          show Option.bind (List.foldlM _ (vm₂.mapRegs f)
            ((s.blockInfo n).phiList.map (PhiInfo.mapRegs f))) _ =
              (Option.bind (List.foldlM _ vm₂ (s.blockInfo n).phiList) _).map _
          rw [hpop, Option.bind_map, Option.map_bind]
          rfl

theorem mapRegs_ssaRename (doms : Dominators) (fuel : ℕ) (s : RenameState) (current : ℕ) :
    ssaRename doms fuel (s.mapRegs f) current =
      (ssaRename doms fuel s current).map (RenameState.mapRegs f) := by
  rw [ssaRename_eq]
  exact mapRegs_renameWalk hf (mapRegs_pushValue hf) (mapRegs_renameInst hf) doms fuel s current

/-! ## Renaming within the stacks -/

omit hf in
theorem mapRegs_height (vm : VariableMap) (key : ℤ) :
    (vm.mapRegs f).height key = vm.height key := by
  unfold VariableMap.height
  show ((((vm.regs key).map (RegInfo.mapRegs f)).map _).getD 0) = _
  cases vm.regs key <;> rfl

theorem mapRegs_pushValueStored (vm : VariableMap) (vId : ℕ) (v : Value) :
    pushValueStored (vm.mapRegs f) (f vId) v =
      (pushValueStored vm vId v).map (VariableMap.mapRegs f) := by
  unfold pushValueStored
  rw [mapRegs_height, hf, mapRegs_pushValue hf, Option.bind_eq_bind, Option.map_bind]
  rfl

theorem mapRegs_renameInstStored (s : RenameState) (i : ℕ) :
    renameInstStored (s.mapRegs f) i = (renameInstStored s i).map (RenameState.mapRegs f) := by
  have htype : ((s.mapRegs f).ir.insts i).type = (s.ir.insts i).type.mapRegs f := rfl
  have hrename := mapRegs_renameInst hf s i
  unfold renameInstStored
  rw [htype]
  cases (s.ir.insts i).type with
  | assignVar rId =>
      show (s.ir.operand ⟨i, 0⟩).bind _ = ((s.ir.operand ⟨i, 0⟩).bind _).map _
      cases s.ir.operand ⟨i, 0⟩ with
      | none => rfl
      | some v =>
          show (pushValueStored (s.variableMap.mapRegs f) (f rId) v).bind _ =
            ((pushValueStored s.variableMap rId v).bind _).map _
          rw [mapRegs_pushValueStored hf]
          cases pushValueStored s.variableMap rId v <;> rfl
  | _ => exact hrename

theorem mapRegs_ssaRenameStored (doms : Dominators) (fuel : ℕ) (s : RenameState) (current : ℕ) :
    ssaRenameStored doms fuel (s.mapRegs f) current =
      (ssaRenameStored doms fuel s current).map (RenameState.mapRegs f) :=
  mapRegs_renameWalk hf (mapRegs_pushValueStored hf) (mapRegs_renameInstStored hf) doms fuel s
    current

/-! ## The conversion -/

omit hf in
theorem mapRegs_removePhis (blockInfo : ℕ → BlockInfo) (elementCount : ℕ) :
    removePhis (BlockInfo.mapRegs f ∘ blockInfo) elementCount (ir.mapRegs f) =
      (removePhis blockInfo elementCount ir).mapRegs f := by
  have hphi : ∀ (ir : Ir) (phi : PhiInfo),
      removePhi (ir.mapRegs f) (phi.mapRegs f) = (removePhi ir phi).mapRegs f := by
    intro ir phi
    unfold removePhi
    rw [apply_ite (Ir.mapRegs f)]
    rfl
  refine List.foldl_hom (Ir.mapRegs f) fun ir i => ?_
  show ((blockInfo i).phiList.map (PhiInfo.mapRegs f)).foldl removePhi (ir.mapRegs f) = _
  rw [List.foldl_map]
  exact List.foldl_hom (Ir.mapRegs f) hphi

/-- **The conversion looks at the keys of the registers only.** -/
theorem ssaConvert_mapRegs (doms : Dominators) (df : DomFrontiers) (fuel entry : ℕ) :
    ssaConvert doms df fuel (ir.mapRegs f) entry =
      (ssaConvert doms df fuel ir entry).map (Ir.mapRegs f) := by
  unfold ssaConvert
  rw [mapRegs_analyzeBlocks ir hf]
  show Option.bind _ _ = Option.map _ (Option.bind _ _)
  rw [Option.bind_map, Option.map_bind]
  congr 1
  funext analyzed
  obtain ⟨blockInfo, vm⟩ := analyzed
  show (placePhis doms df fuel (ir.mapRegs f) (BlockInfo.mapRegs f ∘ blockInfo)
    (vm.mapRegs f)).bind _ = ((placePhis doms df fuel ir blockInfo vm).bind _).map _
  rw [mapRegs_placePhis ir hf, Option.bind_map, Option.map_bind]
  congr 1
  funext placed
  show (ssaRename doms fuel (RenameState.mapRegs f ⟨placed.ir, placed.blockInfo, vm⟩) entry).bind _ =
    ((ssaRename doms fuel ⟨placed.ir, placed.blockInfo, vm⟩ entry).bind _).map _
  rw [mapRegs_ssaRename hf, Option.bind_map, Option.map_bind]
  congr 1
  funext renamed
  exact congrArg some (mapRegs_removePhis renamed.ir renamed.blockInfo doms.elementCount)

/-! ## The conversion within its buffers -/

omit hf in
theorem analysisStored_mapRegs (doms : Dominators) (blockInfo : ℕ → BlockInfo) (vm : VariableMap) :
    AnalysisStored doms (BlockInfo.mapRegs f ∘ blockInfo) (vm.mapRegs f) ↔
      AnalysisStored doms blockInfo vm := by
  unfold AnalysisStored
  refine and_congr (forall₂_congr fun n _ => ?_) (and_congr Iff.rfl ?_)
  · show PointersStored 1000 ((blockInfo n).regList.map _).length ∧ _ ↔ _
    rw [List.length_map]
    rfl
  · refine forall₂_congr fun key _ => ?_
    show (∀ rInfo ∈ (vm.regs key).map (RegInfo.mapRegs f), _) ↔ _
    cases vm.regs key with
    | none => exact iff_of_true nofun nofun
    | some rInfo =>
        simp only [Option.map_some, Option.mem_def, Option.some.injEq, forall_eq']
        rfl

omit hf in
theorem phiListsStored_mapRegs (doms : Dominators) (blockInfo : ℕ → BlockInfo) :
    PhiListsStored doms (BlockInfo.mapRegs f ∘ blockInfo) ↔ PhiListsStored doms blockInfo := by
  refine forall₂_congr fun n _ => ?_
  show PointersStored 1000 ((blockInfo n).phiList.map _).length ↔ _
  rw [List.length_map]

omit hf in
theorem pairsStored_mapRegs (doms : Dominators) (s : RenameState) :
    PairsStored doms (s.mapRegs f) ↔ PairsStored doms s := by
  refine forall₂_congr fun n _ => ?_
  show (∀ phi ∈ (s.blockInfo n).phiList.map (PhiInfo.mapRegs f), _) ↔ _
  rw [List.forall_mem_map]
  rfl

/-- **The buffers hold as much for other ids with the same keys.** -/
theorem ssaConvertStored_mapRegs (doms : Dominators) (df : DomFrontiers) (fuel entry : ℕ) :
    ssaConvertStored doms df fuel (ir.mapRegs f) entry =
      (ssaConvertStored doms df fuel ir entry).map (Ir.mapRegs f) := by
  unfold ssaConvertStored
  rw [mapRegs_analyzeBlocks ir hf]
  show Option.bind _ _ = Option.map _ (Option.bind _ _)
  rw [Option.bind_map, Option.map_bind]
  congr 1
  funext analyzed
  obtain ⟨blockInfo, vm⟩ := analyzed
  show Option.bind (guard (AnalysisStored doms (BlockInfo.mapRegs f ∘ blockInfo) (vm.mapRegs f))) _ =
    (Option.bind (guard (AnalysisStored doms blockInfo vm)) _).map _
  simp only [analysisStored_mapRegs]
  rw [Option.map_bind]
  congr 1
  funext _
  have hplace : placePhisStored doms df (ir.mapRegs f) (BlockInfo.mapRegs f ∘ blockInfo)
      (vm.mapRegs f) = (placePhisStored doms df ir blockInfo vm).map (PlaceState.mapRegs f) := by
    unfold placePhisStored
    rw [mapRegs_placePhis ir hf]
    show Option.bind _ _ = Option.map _ (Option.bind _ _)
    rw [Option.bind_map, Option.map_bind]
    congr 1
    funext placed
    show Option.bind (guard (PhiListsStored doms (BlockInfo.mapRegs f ∘ placed.blockInfo))) _ =
      (Option.bind (guard (PhiListsStored doms placed.blockInfo)) _).map _
    simp only [phiListsStored_mapRegs]
    rw [Option.map_bind]
    rfl
  show (placePhisStored doms df (ir.mapRegs f) (BlockInfo.mapRegs f ∘ blockInfo)
    (vm.mapRegs f)).bind _ = ((placePhisStored doms df ir blockInfo vm).bind _).map _
  rw [hplace, Option.bind_map, Option.map_bind]
  congr 1
  funext placed
  show (ssaRenameStored doms fuel (RenameState.mapRegs f ⟨placed.ir, placed.blockInfo, vm⟩)
      entry).bind _ =
    ((ssaRenameStored doms fuel ⟨placed.ir, placed.blockInfo, vm⟩ entry).bind _).map _
  rw [mapRegs_ssaRenameStored hf, Option.bind_map, Option.map_bind]
  congr 1
  funext renamed
  show Option.bind (guard (PairsStored doms (renamed.mapRegs f))) _ =
    (Option.bind (guard (PairsStored doms renamed)) _).map _
  simp only [pairsStored_mapRegs]
  rw [Option.map_bind]
  congr 1
  funext _
  exact congrArg some (mapRegs_removePhis renamed.ir renamed.blockInfo doms.elementCount)

end MapRegs
