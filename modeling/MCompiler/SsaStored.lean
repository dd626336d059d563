/-
# The conversion within its buffers

What `ssa_convert` collects is stored in buffers of `dbuffer_init`, which hold 250 pointers, and
the pairs of a phi in one that holds 32.  `ssaConvertStored` is `ssa_convert` as far as nothing is
stored past the end of them.

* The lists of the blocks and variables and the pairs of the phis only grow, so that it is enough
  to look at them when the loops that push to them are done.
* The worklist is cleared for each variable, and the loop over it looks at each pair once: a loop
  over 125 pairs ends in 126 rounds (`worklists_stored_iff`).
* Value stacks are popped, so that each push is looked at (`valueStack_stored_iff`).
-/
import MCompiler.Buffer
import MCompiler.SsaConversion

open Runs

/-! ## The buffers -/

/-- The buffer of a phi that has been created without operands holds 16 pairs. -/
theorem pairsStored_iff {n : ℕ} : PointersStored 128 n ↔ n ≤ 32 :=
  pointersStored_iff (show 2 ≤ 16 by decide) (by decide)

instance : DecidablePred (PointersStored 128) := fun _ => decidable_of_iff _ pairsStored_iff.symm

/-- A value stack whose pops find a value: its pushes are stored if and only if each leaves at
most 250 values. -/
theorem valueStack_stored_iff (ops : List StackOp)
    (hall : EveryStep stackHeight (fun k op => op.Allowed k) 0 ops) :
    EveryStep dbufferStep (fun d op => op.Safe d) (dbufferInitSize 1000)
        (ops.map StackOp.toOp) ↔
      EveryStep stackHeight (fun k op => op.Below 250 k) 0 ops :=
  stackOps_safe_iff (show 2 ≤ 125 by decide) (by decide) ops hall

/-- The worklists of variables with these numbers of pairs, one after the other. -/
def worklistOps (pairs : List ℕ) : List StackOp :=
  pairs.flatMap fun n => .clear :: List.replicate (2 * n) (.push 0)

theorem pushes_below_iff (n k : ℕ) (rest : List StackOp) (hk : k ≤ 250) :
    EveryStep stackHeight (fun k op => op.Below 250 k) k (List.replicate n (.push 0) ++ rest) ↔
      k + n ≤ 250 ∧ EveryStep stackHeight (fun k op => op.Below 250 k) (k + n) rest := by
  induction n generalizing k with
  | zero => exact (and_iff_right hk).symm
  | succ n ih =>
      show k < 250 ∧ EveryStep _ _ (k + 1) (List.replicate n (.push 0) ++ rest) ↔ _
      rw [show k + (n + 1) = k + 1 + n by omega]
      constructor
      · rintro ⟨hlt, hrest⟩
        exact (ih (k + 1) hlt).mp hrest
      · rintro ⟨hle, hrest⟩
        exact ⟨by omega, (ih (k + 1) (by omega)).mpr ⟨hle, hrest⟩⟩

/-- **The worklist** is stored if and only if no variable has more than 125 pairs. -/
theorem worklists_stored_iff (pairs : List ℕ) :
    EveryStep dbufferStep (fun d op => op.Safe d) (dbufferInitSize 1000)
        ((worklistOps pairs).map StackOp.toOp) ↔ ∀ n ∈ pairs, n ≤ 125 := by
  have hallowed : ∀ (ops : List StackOp) k, (∀ op ∈ ops, op ≠ .pop) →
      EveryStep stackHeight (fun k op => op.Allowed k) k ops := by
    intro ops
    induction ops with
    | nil => exact fun _ _ => trivial
    | cons op ops ih =>
        intro k h
        obtain ⟨hop, hops⟩ := List.forall_mem_cons.mp h
        refine ⟨?_, ih _ hops⟩
        cases op with
        | pop => exact absurd rfl hop
        | push _ => trivial
        | clear => trivial
  have hpop : ∀ op ∈ worklistOps pairs, op ≠ .pop := by
    rintro op hop rfl
    obtain ⟨n, -, hop⟩ := List.mem_flatMap.mp hop
    rcases List.mem_cons.mp hop with hop | hop
    · cases hop
    · cases List.eq_of_mem_replicate hop
  rw [valueStack_stored_iff _ (hallowed _ 0 hpop)]
  have hbelow : ∀ k, EveryStep stackHeight (fun k op => op.Below 250 k) k (worklistOps pairs) ↔
      ∀ n ∈ pairs, n ≤ 125 := by
    clear hpop
    induction pairs with
    | nil => exact fun _ => iff_of_true trivial nofun
    | cons n pairs ih =>
        intro k
        show True ∧ EveryStep _ _ 0 (List.replicate (2 * n) (.push 0) ++ worklistOps pairs) ↔ _
        rw [true_and, pushes_below_iff _ _ _ (Nat.zero_le _), ih, List.forall_mem_cons]
        exact and_congr_left fun _ => by omega
  exact hbelow 0

/-! ## Steps 1 and 2 -/

/-- What step 1 has collected is stored. -/
def AnalysisStored (doms : Dominators) (blockInfo : ℕ → BlockInfo) (variableMap : VariableMap) :
    Prop :=
  (∀ i < doms.elementCount, PointersStored 1000 (blockInfo i).regList.length ∧
    PointersStored 1000 (blockInfo i).loadAssigns.length) ∧
  PointersStored 1000 variableMap.list.length ∧
  ∀ key ∈ variableMap.list, ∀ rInfo ∈ variableMap.regs key,
    PointersStored 1000 rInfo.assigns.length

instance (doms : Dominators) (blockInfo : ℕ → BlockInfo) (variableMap : VariableMap) :
    Decidable (AnalysisStored doms blockInfo variableMap) := by
  unfold AnalysisStored
  infer_instance

/-- The lists of phis are stored. -/
def PhiListsStored (doms : Dominators) (blockInfo : ℕ → BlockInfo) : Prop :=
  ∀ i < doms.elementCount, PointersStored 1000 (blockInfo i).phiList.length

instance (doms : Dominators) (blockInfo : ℕ → BlockInfo) :
    Decidable (PhiListsStored doms blockInfo) := by
  unfold PhiListsStored
  infer_instance

/-- Step 2 with a worklist of 125 pairs. -/
def placePhisStored (doms : Dominators) (df : DomFrontiers) (ir : Ir)
    (blockInfo : ℕ → BlockInfo) (variableMap : VariableMap) : Option PlaceState := do
  let placed ← placePhis doms df 126 ir blockInfo variableMap
  guard (PhiListsStored doms placed.blockInfo)
  return placed

/-! ## Step 3 -/

/-- The number of values on the stack of a register. -/
def VariableMap.height (variableMap : VariableMap) (key : ℤ) : ℕ :=
  ((variableMap.regs key).map fun rInfo => rInfo.valueStack.length).getD 0

/-- `_pushValue` on a stack with room for the value. -/
def pushValueStored (variableMap : VariableMap) (vId : ℕ) (value : Value) :
    Option VariableMap := do
  guard (PointersStored 1000 (variableMap.height (toInt vId) + 1))
  pushValue variableMap vId value

@[inherit_doc renameInst]
def renameInstStored (s : RenameState) (inst : ℕ) : Option RenameState :=
  match (s.ir.insts inst).type with
  | .assignVar rId => do
      let value ← s.ir.operand ⟨inst, 0⟩
      let variableMap ← pushValueStored s.variableMap rId value
      return { s with ir := instRemove s.ir inst, variableMap := variableMap }
  | _ => renameInst s inst

/-- `ssa_rename` with the function `push` for a push and `rename` for a load or assign. -/
def renameWalk (push : VariableMap → ℕ → Value → Option VariableMap)
    (rename : RenameState → ℕ → Option RenameState) (doms : Dominators) :
    ℕ → RenameState → ℕ → Option RenameState
  | 0, _, _ => none
  | fuel + 1, s, current => do
      let number ← blockNumber doms current
      let bInfo := s.blockInfo number
      if bInfo.isRenamed then return s
      let blockInfo := Function.update s.blockInfo number { bInfo with isRenamed := true }
      let variableMap ← bInfo.phiList.foldlM
        (fun variableMap phi => push variableMap phi.rId (.inst phi.phiInst)) s.variableMap
      let s ← bInfo.loadAssigns.foldlM rename ⟨s.ir, blockInfo, variableMap⟩
      let ir ← (blockSuccessors s.ir current).foldlM
        (pushSuccessor doms s.blockInfo s.variableMap current) s.ir
      let s ← (← dominatorChilds doms current).foldlM (renameWalk push rename doms fuel)
        { s with ir := ir }
      let variableMap ← bInfo.loadAssigns.foldlM (popInst s.ir) s.variableMap
      let variableMap ← bInfo.phiList.foldlM
        (fun variableMap phi => popValue variableMap phi.rId) variableMap
      return { s with variableMap := variableMap }

theorem ssaRename_eq (doms : Dominators) (fuel : ℕ) :
    ssaRename doms fuel = renameWalk pushValue renameInst doms fuel := by
  induction fuel with
  | zero => rfl
  | succ fuel ih =>
      funext s current
      rw [ssaRename, renameWalk, ih]

/-- `ssa_rename` within the value stacks. -/
def ssaRenameStored : Dominators → ℕ → RenameState → ℕ → Option RenameState :=
  renameWalk pushValueStored renameInstStored

/-- The pairs of the phis are stored. -/
def PairsStored (doms : Dominators) (s : RenameState) : Prop :=
  ∀ i < doms.elementCount, ∀ phi ∈ (s.blockInfo i).phiList,
    PointersStored 128 (s.ir.insts phi.phiInst).uses.length

instance (doms : Dominators) (s : RenameState) : Decidable (PairsStored doms s) := by
  unfold PairsStored
  infer_instance

/-- A call of `ssa_rename` that returns and stays within its buffers. -/
def RenameStored (doms : Dominators) (fuel : ℕ) (s : RenameState) (current : ℕ)
    (s' : RenameState) : Prop :=
  ssaRenameStored doms fuel s current = some s' ∧ PairsStored doms s'

/-- The lists that `ssa_rename` starts with are stored. -/
def RenameListsStored (doms : Dominators) (blockInfo : ℕ → BlockInfo) : Prop :=
  ∀ i < doms.elementCount, PointersStored 1000 (blockInfo i).phiList.length ∧
    PointersStored 1000 (blockInfo i).loadAssigns.length

/-! ## The conversion -/

/-- `ssa_convert` within its buffers. -/
def ssaConvertStored (doms : Dominators) (df : DomFrontiers) (fuel : ℕ) (ir : Ir) (entry : ℕ) :
    Option Ir := do
  let (blockInfo, variableMap) ← analyzeBlocks ir doms
  guard (AnalysisStored doms blockInfo variableMap)
  let placed ← placePhisStored doms df ir blockInfo variableMap
  let renamed ← ssaRenameStored doms fuel ⟨placed.ir, placed.blockInfo, variableMap⟩ entry
  guard (PairsStored doms renamed)
  return removePhis renamed.blockInfo doms.elementCount renamed.ir
