/-
# Functions that can be converted, and what renaming is to find

`SsaFunction` collects what is assumed of a function in load/assign form, and `CorrectDoms`
what is assumed of its dominators.  A `Renaming` gives every load the value it stands for,
and every block the values of the registers at its start and at its end; `BlockRenamed` says
that these fit together along the dominator tree.
-/
import MCompiler.SsaRewrite
import MCompiler.SsaStacks

open FlowGraph

/-! ## Instructions -/

/-- `load_var` and `assign_var`. -/
def InstType.isLoadAssign : InstType → Bool
  | .loadVar _ | .assignVar _ => true
  | _ => false

/-- The register of a load or an assign. -/
def InstType.rId : InstType → Option ℕ
  | .loadVar rId | .assignVar rId => some rId
  | _ => none

theorem InstType.rId_eq_none {type : InstType} (hload : ∀ a, type ≠ .loadVar a)
    (hassign : ∀ a, type ≠ .assignVar a) : type.rId = none := by
  cases type with
  | loadVar a => exact absurd rfl (hload a)
  | assignVar a => exact absurd rfl (hassign a)
  | _ => rfl

/-- The instructions whose results are operands. -/
def InstType.hasResult : InstType → Bool
  | .loadVar _ | .binary _ | .phi => true
  | _ => false

/-- The loads and assigns of a block. -/
def loadAssigns (ir : Ir) (l : List ℕ) : List ℕ := l.filter fun i => (ir.insts i).type.isLoadAssign

/-! ## Functions -/

section Function

variable (ir : Ir) (entry : ℕ)

/-- `j` is earlier in the block `b` than `i`, or in a strict dominator of `b`. -/
def DefinedBefore (b i j : ℕ) : Prop :=
  (∃ pre post, ir.blocks b = pre ++ i :: post ∧ j ∈ pre) ∨
    ∃ x, StrictlyDominates (cfgEdge ir) entry x b ∧ j ∈ ir.blocks x

/-- A constant, or a result that is defined before. -/
inductive OperandOk (b i : ℕ) : Value → Prop
  | const (c : ℕ) : OperandOk b i (.const c)
  | inst {j : ℕ} : (ir.insts j).type.hasResult → DefinedBefore ir entry b i j →
      OperandOk b i (.inst j)
  | block (x : ℕ) : (ir.insts i).type.isJump → OperandOk b i (.block x)

/-- Loads and assigns as they are created: registers are ints, and an assign has its
operand. -/
structure LoadAssignForm : Prop where
  reg : ∀ b, Reachable (cfgEdge ir) entry b → ∀ i ∈ ir.blocks b,
    ∀ a, (ir.insts i).type.rId = some a → IntReg a
  assign : ∀ b, Reachable (cfgEdge ir) entry b → ∀ i ∈ ir.blocks b,
    ∀ a, (ir.insts i).type = .assignVar a → ∃ v, (ir.insts i).uses = [some v]

/-- A function in load/assign form: operands are constants or results defined before, and a
block that ends with a load or an assign has no jump. -/
structure SsaFunction : Prop extends LoadAssignForm ir entry where
  jump : ∀ b, Reachable (cfgEdge ir) entry b → ∀ l i, ir.blocks b = l ++ [i] →
    (ir.insts i).type.isLoadAssign → ∀ j ∈ l, ∀ k x, ir.operand ⟨j, k⟩ ≠ some (.block x)
  operand : ∀ b, Reachable (cfgEdge ir) entry b → ∀ i ∈ ir.blocks b,
    (ir.insts i).type ≠ .phi → ∀ k v, ir.operand ⟨i, k⟩ = some v → OperandOk ir entry b i v

/-- The dominator tree of the function, with the numbers of the blocks. -/
structure CorrectDoms (doms : Dominators) : Prop extends TrueIDoms ir entry doms where
  nodup : doms.postorder.Nodup
  number : ∀ i b : ℕ, doms.postorder[i]? = some b →
    dominatorsGetNumber doms.nodeToNum b = some i
  childs : ∀ b, Reachable (cfgEdge ir) entry b → ∃ cs, dominatorChilds doms b = some cs ∧
    ∀ c, c ∈ cs ↔ Reachable (cfgEdge ir) entry c ∧ IsIDom (cfgEdge ir) entry b c

/-- `df` holds the dominance frontiers of the reachable blocks. -/
def CorrectFrontiers (df : DomFrontiers) : Prop :=
  ∀ x, Reachable (cfgEdge ir) entry x →
    ∀ y, y ∈ domfrontiersGet df x ↔ Frontier (cfgEdge ir) entry x y

end Function

/-! ## Registers along a block -/

/-- The values of the registers after an instruction. -/
def instEnv (ir : Ir) (value : ℕ → Value) (env : Env) (i : ℕ) : Env :=
  match (ir.insts i).type with
  | .assignVar a => Function.update env a ((ir.operand ⟨i, 0⟩).map (sub value))
  | _ => env

/-- The values of the registers after a list of instructions. -/
def blockEnv (ir : Ir) (value : ℕ → Value) (env : Env) (l : List ℕ) : Env :=
  l.foldl (instEnv ir value) env

/-- The values of the registers after phis. -/
def phiEnv (phis : List PhiInfo) (env : Env) : Env :=
  phis.foldl (fun env p => Function.update env p.rId (some (.inst p.phiInst))) env

/-- What replaces the results of loads, and the values of the registers at the start of a
block, before its phis, and at its end. -/
structure Renaming where
  value : ℕ → Value
  inEnv : ℕ → Env
  outEnv : ℕ → Env

section Renamed

variable (ir : Ir) (entry : ℕ) (phis : ℕ → List PhiInfo)

/-- The block `b` writes the register `a`. -/
def Writes (b a : ℕ) : Prop :=
  (∃ i ∈ ir.blocks b, (ir.insts i).type = .assignVar a) ∨ ∃ p ∈ phis b, p.rId = a

/-- The values at a block fit together with those of its immediate dominator. -/
structure BlockRenamed (r : Renaming) (b : ℕ) : Prop where
  atEntry : b = entry → r.inEnv b = fun _ => none
  idom : ∀ d, IsIDom (cfgEdge ir) entry d b → r.inEnv b = r.outEnv d
  out : r.outEnv b = blockEnv ir r.value (phiEnv (phis b) (r.inEnv b)) (ir.blocks b)
  load : ∀ pre i post a, ir.blocks b = pre ++ i :: post → (ir.insts i).type = .loadVar a →
    blockEnv ir r.value (phiEnv (phis b) (r.inEnv b)) pre a = some (r.value i)

/-- A value that stays: a constant, or the result of an instruction that is not removed. -/
def Settled : Value → Prop
  | .inst i => (ir.insts i).type.isLoadAssign = false
  | .const _ => True
  | .block _ => False

/-- The load `i` has a value: its register is written before. -/
def Supplied (b a : ℕ) (pre : List ℕ) : Prop :=
  (∃ j ∈ pre, (ir.insts j).type = .assignVar a) ∨ (∃ p ∈ phis b, p.rId = a) ∨
    ∃ x, StrictlyDominates (cfgEdge ir) entry x b ∧ Writes ir phis x a

/-- Every load in a reachable block finds a value. -/
def LoadsSupplied : Prop :=
  ∀ b, Reachable (cfgEdge ir) entry b → ∀ pre i post a,
    ir.blocks b = pre ++ i :: post → (ir.insts i).type = .loadVar a →
      Supplied ir entry phis b a pre

/-- What renaming starts with: a function, its dominators, and phis without operands. -/
structure RenameForm (doms : Dominators) : Prop where
  heap : HeapOk ir
  doms : CorrectDoms ir entry doms
  form : SsaFunction ir entry
  phi : ∀ b, Reachable (cfgEdge ir) entry b → ∀ p ∈ phis b, IntReg p.rId ∧
    p.phiInst ∈ ir.blocks b ∧ (ir.insts p.phiInst).type = .phi ∧ (ir.insts p.phiInst).uses = []

/-- What renaming needs, so that it ends: a value for every load. -/
structure RenameInput (doms : Dominators) : Prop extends RenameForm ir entry phis doms where
  supplied : LoadsSupplied ir entry phis

/-- **What renaming has done in the blocks `W`.**  `pushed` are the operands of the phis, and
`done` the instructions that have been removed. -/
structure Renamed (W : ℕ → Prop) (r : Renaming) (done : List ℕ) (pushed : List PhiOperand)
    (ir' : Ir) : Prop where
  rewritten : Rewritten ir done r.value pushed ir'
  mem_done : ∀ i, i ∈ done ↔ ∃ b, W b ∧ i ∈ loadAssigns ir (ir.blocks b)
  kept : ∀ i, (i ∉ done ∨ ∃ a, (ir.insts i).type = .assignVar a) → r.value i = .inst i
  settled : ∀ i ∈ done, ∀ a, (ir.insts i).type = .loadVar a → Settled ir (r.value i)
  mem_pushed : ∀ e, e ∈ pushed ↔ W e.block ∧
    ∃ s ∈ blockSuccessors ir e.block, ∃ p ∈ phis s, p.phiInst = e.phi ∧
      r.outEnv e.block p.rId = some e.value
  blocks : ∀ b, W b → BlockRenamed ir entry phis r b
  env : ∀ b, W b → ∀ a v, r.outEnv b a = some v → Settled ir v

end Renamed
