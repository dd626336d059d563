/-
# Building control flow graphs

Blocks and jumps are created in any order, and every jump is inserted last in its block
(`BuiltCfg`).  Then the use list of a block holds its incoming edges, in the order in which
the jumps were created, and an instruction knows its block (`CfgInv`).
-/
import MCompiler.DominatorsShape
import MCompiler.IrEmit
import MCompiler.IrUseRuns

open FlowGraph Runs

/-! ## Calls -/

/-- A call that creates an object or inserts an instruction in a block. -/
inductive BuildOp where
  | call (op : UseOp)
  | newReturn
  | insert (block inst : ℕ)

/-- One call. -/
def buildStep (ir : Ir) : BuildOp → Option Ir
  | .call op => useStep ir op
  | .newReturn => some (instNewReturn ir).1
  | .insert block inst => some (blockInsert ir block inst)

/-- Only jumps lead to blocks, and operands that are set stay as they are. -/
def UseOp.Builds : UseOp → Prop
  | .newAssignVar _ value => useBlock (some value) = none
  | .newBinary _ a b => useBlock (some a) = none ∧ useBlock (some b) = none
  | .newJumpCond _ _ cond => useBlock (some cond) = none
  | .newPhi _ | .setUse .. | .replaceAllUses .. | .phiInsertValue .. => False
  | _ => True

instance (op : UseOp) : Decidable op.Builds :=
  match op with
  | .constantValue _ | .blockNew | .newLoadVar .. | .newJump _ => isTrue trivial
  | .newAssignVar _ value => inferInstanceAs (Decidable (useBlock (some value) = none))
  | .newBinary _ a b =>
      inferInstanceAs (Decidable (useBlock (some a) = none ∧ useBlock (some b) = none))
  | .newJumpCond _ _ cond => inferInstanceAs (Decidable (useBlock (some cond) = none))
  | .newPhi _ | .setUse .. | .replaceAllUses .. | .phiInsertValue .. => isFalse id

/-- An instruction is inserted once, and nothing is inserted after a jump. -/
def BuildOp.Allowed (ir : Ir) : BuildOp → Prop
  | .call op => op.Allowed ir ∧ op.Builds
  | .newReturn => True
  | .insert block inst => block < ir.blockCount ∧ inst < ir.instCount ∧
      (∀ b < ir.blockCount, inst ∉ ir.blocks b) ∧
      ∀ i ∈ ir.blocks block, (ir.insts i).type.isJump = false

instance (ir : Ir) (op : BuildOp) : Decidable (op.Allowed ir) := by
  cases op <;> unfold BuildOp.Allowed <;> infer_instance

/-- A graph that the calls `ops` build: every jump is in a block, and every block can be
reached from the entry. -/
structure BuiltCfg (ops : List BuildOp) (ir : Ir) (entry : ℕ) : Prop where
  allowed : AllSteps buildStep (fun ir op => op.Allowed ir) irContextInit ops
  built : Runs.run buildStep irContextInit ops = some ir
  inserted : ∀ i < ir.instCount, (ir.insts i).type.isJump → ∃ b < ir.blockCount, i ∈ ir.blocks b
  entry_lt : entry < ir.blockCount
  reachable : ∀ b < ir.blockCount, Reachable (cfgEdge ir) entry b

/-! ## What every call keeps -/

/-- Operands that are blocks belong to jumps, an instruction in a block has it as its
parent, and a jump is the last one. -/
structure CfgInv (ir : Ir) : Prop where
  defUse : DefUse ir
  jump : ∀ u b, ir.operand u = some (.block b) → (ir.insts u.inst).type.isJump
  inside : ∀ i b, i ∈ ir.blocks b →
    (ir.insts i).parent = b ∧ i < ir.instCount ∧ b < ir.blockCount
  last : ∀ i b, i ∈ ir.blocks b → (ir.insts i).type.isJump → blockLastInstruction ir b = some i

theorem cfgInv_start : CfgInv irContextInit where
  defUse := defUse_irContextInit
  jump _ _ h := by cases h
  inside _ _ h := by cases h
  last _ _ h := by cases h

section Step

variable {ir ir' : Ir}

/-- A new instruction in no block. -/
theorem CfgInv.create (h : CfgInv ir) {type : InstType} {dataType : DataType}
    {uses : List (Option Value)} (hdefUse : DefUse (ir.create type dataType uses))
    (hjump : ∀ b, some (.block b) ∈ uses → type.isJump) :
    CfgInv (ir.create type dataType uses) := by
  have hnew : (ir.create type dataType uses).insts ir.instCount = ⟨type, dataType, uses, 0⟩ :=
    Function.update_self ..
  have hold : ∀ i, i ≠ ir.instCount → (ir.create type dataType uses).insts i = ir.insts i :=
    fun i hi => Function.update_of_ne hi ..
  have hinside : ∀ i b, i ∈ ir.blocks b →
      (ir.create type dataType uses).insts i = ir.insts i := by
    intro i b hi
    obtain ⟨-, hlt, -⟩ := h.inside i b hi
    exact hold i (by omega)
  refine ⟨hdefUse, ?_, ?_, ?_⟩
  · intro u b hu
    have hslot := Ir.operand_eq_some.mp hu
    unfold Ir.slot at hslot
    by_cases hi : u.inst = ir.instCount
    · rw [hi, hnew] at hslot ⊢
      exact hjump b (List.mem_of_getElem? hslot)
    · rw [hold _ hi] at hslot ⊢
      exact h.jump u b (Ir.operand_eq_some.mpr hslot)
  · intro i b hi
    obtain ⟨hparent, hlt, hb⟩ := h.inside i b hi
    rw [hinside i b hi]
    exact ⟨hparent, Nat.lt_succ_of_lt hlt, hb⟩
  · intro i b hi htype
    rw [hinside i b hi] at htype
    exact h.last i b hi htype

/-- A new block is empty. -/
theorem CfgInv.block_new (h : CfgInv ir) : CfgInv (blockNew ir).1 := by
  have hblocks : ∀ i b, i ∈ (blockNew ir).1.blocks b → b ≠ ir.blockCount ∧ i ∈ ir.blocks b := by
    intro i b hi
    have hb : b ≠ ir.blockCount := by
      rintro rfl
      rw [blockNew_blocks_self] at hi
      cases hi
    rw [blockNew_blocks_of_ne ir hb] at hi
    exact ⟨hb, hi⟩
  refine ⟨h.defUse.block_new.defUse, h.jump, ?_, ?_⟩
  · intro i b hi
    obtain ⟨hparent, hlt, hb⟩ := h.inside i b (hblocks i b hi).2
    exact ⟨hparent, hlt, Nat.lt_succ_of_lt hb⟩
  · intro i b hi htype
    obtain ⟨hb, hold⟩ := hblocks i b hi
    rw [blockLastInstruction, blockNew_blocks_of_ne ir hb]
    exact h.last i b hold htype

/-- An instruction of no block is inserted after instructions that are not jumps. -/
theorem CfgInv.insert (h : CfgInv ir) {block inst : ℕ} (hblock : block < ir.blockCount)
    (hinst : inst < ir.instCount) (hfresh : ∀ b < ir.blockCount, inst ∉ ir.blocks b)
    (hjumps : ∀ i ∈ ir.blocks block, (ir.insts i).type.isJump = false) :
    CfgInv (blockInsert ir block inst) := by
  have hinsts : ∀ i, (blockInsert ir block inst).insts i =
      if i = inst then { ir.insts i with parent := block } else ir.insts i := by
    intro i
    show Function.update ir.insts inst _ i = _
    by_cases hi : i = inst
    · rw [hi, Function.update_self, if_pos rfl]
    · rw [Function.update_of_ne hi, if_neg hi]
  have huses : ∀ i, ((blockInsert ir block inst).insts i).uses = (ir.insts i).uses := by
    intro i
    rw [hinsts]
    split <;> rfl
  have htype : ∀ i, ((blockInsert ir block inst).insts i).type = (ir.insts i).type := by
    intro i
    rw [hinsts]
    split <;> rfl
  have hslot : ∀ u, (blockInsert ir block inst).slot u = ir.slot u := fun u =>
    congrArg (·[u.slot]?) (huses u.inst)
  have hop : ∀ u, (blockInsert ir block inst).operand u = ir.operand u := fun u =>
    congrArg Option.join (hslot u)
  have hblocks : ∀ b, (blockInsert ir block inst).blocks b =
      if b = block then ir.blocks b ++ [inst] else ir.blocks b := by
    intro b
    show Function.update ir.blocks block _ b = _
    by_cases hb : b = block
    · rw [hb, Function.update_self, if_pos rfl]
    · rw [Function.update_of_ne hb, if_neg hb]
  -- an instruction that was in a block is not the new one
  have hne : ∀ i b, i ∈ ir.blocks b → i ≠ inst := by
    rintro i b hi rfl
    exact hfresh b (h.inside i b hi).2.2 hi
  refine ⟨⟨⟨fun v u => ?_, h.defUse.uses.nodup⟩, fun u hu => ?_, fun u v hu => ?_⟩, ?_, ?_, ?_⟩
  · rw [hop]
    exact h.defUse.uses.mem v u
  · rw [hslot]
    exact h.defUse.fresh u hu
  · rw [hslot] at hu
    exact h.defUse.value u v hu
  · intro u b hu
    rw [hop] at hu
    rw [htype]
    exact h.jump u b hu
  · intro i b hi
    rw [hblocks] at hi
    rw [hinsts]
    split at hi
    · rename_i hb
      rcases List.mem_append.mp hi with hi | hi
      · rw [if_neg (hne i b hi)]
        exact h.inside i b hi
      · obtain rfl := List.mem_singleton.mp hi
        rw [if_pos rfl, hb]
        exact ⟨rfl, hinst, hblock⟩
    · rw [if_neg (hne i b hi)]
      exact h.inside i b hi
  · intro i b hi hjump
    rw [htype] at hjump
    rw [hblocks] at hi
    rw [blockLastInstruction, hblocks]
    split at hi
    · rename_i hb
      subst hb
      rw [if_pos rfl, List.getLast?_concat]
      rcases List.mem_append.mp hi with hi | hi
      · rw [hjumps i hi] at hjump
        cases hjump
      · rw [List.mem_singleton.mp hi]
    · rename_i hb
      rw [if_neg hb]
      exact h.last i b hi hjump

/-- What a call that builds does. -/
theorem useStep_builds {op : UseOp} (hallowed : op.Allowed ir)
    (hbuilds : op.Builds) (hstep : useStep ir op = some ir') :
    (∃ value, ir' = (irConstantValue ir value).1) ∨ ir' = (blockNew ir).1 ∨
      ∃ type dataType uses, ir' = ir.create type dataType uses ∧
        ∀ b, some (.block b) ∈ uses → type.isJump := by
  -- an operand that is not a block
  have hother : ∀ {v : Value} {b : ℕ}, useBlock (some v) = none → some (Value.block b) ≠ some v := by
    rintro v b hv heq
    rw [← heq] at hv
    cases hv
  cases op with
  | constantValue value => exact Or.inl ⟨value, (Option.some.inj hstep).symm⟩
  | blockNew => exact Or.inr (Or.inl (Option.some.inj hstep).symm)
  | newLoadVar rId type =>
      obtain rfl := Option.some.inj hstep
      refine Or.inr (Or.inr ⟨_, _, _, congrArg Prod.fst (instNew_eq ir _ _ 0), fun b hb => ?_⟩)
      cases hb
  | newAssignVar rId value =>
      replace hstep : (instNewAssignVar ir rId value).map Prod.fst = some ir' := hstep
      rw [instNewAssignVar_eq] at hstep
      obtain rfl := Option.some.inj hstep
      refine Or.inr (Or.inr ⟨_, _, _, rfl, fun b hb => ?_⟩)
      exact absurd (List.mem_singleton.mp hb) (hother hbuilds)
  | newBinary op a b =>
      replace hstep : (instNewBinary ir op a b).map Prod.fst = some ir' := hstep
      rw [instNewBinary_eq ir op a b hallowed.2.2] at hstep
      obtain rfl := Option.some.inj hstep
      refine Or.inr (Or.inr ⟨_, _, _, rfl, fun c hc => ?_⟩)
      rcases List.mem_pair.mp hc with hc | hc
      · exact absurd hc (hother hbuilds.1)
      · exact absurd hc (hother hbuilds.2)
  | newJump block =>
      replace hstep : (instNewJump ir block).map Prod.fst = some ir' := hstep
      rw [instNewJump_eq] at hstep
      obtain rfl := Option.some.inj hstep
      exact Or.inr (Or.inr ⟨_, _, _, rfl, fun _ _ => rfl⟩)
  | newJumpCond a b cond =>
      replace hstep : (instNewJumpCond ir a b cond).map Prod.fst = some ir' := hstep
      rw [instNewJumpCond_eq] at hstep
      obtain rfl := Option.some.inj hstep
      exact Or.inr (Or.inr ⟨_, _, _, rfl, fun _ _ => rfl⟩)
  | newPhi => exact hbuilds.elim
  | setUse => exact hbuilds.elim
  | replaceAllUses => exact hbuilds.elim
  | phiInsertValue => exact hbuilds.elim

/-- **Every call** keeps the invariant. -/
theorem CfgInv.step (h : CfgInv ir) {op : BuildOp} (hallowed : op.Allowed ir)
    (hstep : buildStep ir op = some ir') : CfgInv ir' := by
  cases op with
  | call op =>
      obtain ⟨ir'', hcall, hdefUse, -⟩ := h.defUse.step hallowed.1
      obtain rfl := Option.some.inj (hcall.symm.trans hstep)
      obtain ⟨value, rfl⟩ | rfl | ⟨type, dataType, uses, rfl, hjump⟩ :=
        useStep_builds hallowed.1 hallowed.2 hstep
      · exact ⟨hdefUse, h.jump, h.inside, h.last⟩
      · exact h.block_new
      · exact h.create hdefUse hjump
  | newReturn =>
      obtain rfl := Option.some.inj hstep
      have hnew := (h.defUse.inst_new .ret .void (n := 0) fun _ => rfl).defUse
      unfold instNewReturn
      rw [instNew_eq] at hnew ⊢
      apply h.create hnew
      intro b hb
      cases hb
  | insert block inst =>
      obtain rfl := Option.some.inj hstep
      obtain ⟨hblock, hinst, hfresh, hjumps⟩ := hallowed
      exact h.insert hblock hinst hfresh hjumps

end Step

/-! ## The graph -/

section Graph

variable {ops : List BuildOp} {ir : Ir} {entry : ℕ} (h : BuiltCfg ops ir entry)
include h

theorem BuiltCfg.inv : CfgInv ir :=
  run_invariant_of_allSteps (fun _ _ _ hinv hop hstep => hinv.step hop hstep) cfgInv_start
    h.allowed h.built

theorem BuiltCfg.lt_blockCount {b : ℕ} (hb : Reachable (cfgEdge ir) entry b) :
    b < ir.blockCount := by
  obtain ⟨p, hp⟩ := hb
  cases hp with
  | root => exact h.entry_lt
  | step _ hE =>
      obtain ⟨u, -, -, hop⟩ := mem_blockSuccessors.mp hE
      exact h.inv.defUse.value u _ (Ir.operand_eq_some.mp hop)

/-- The last instruction of a block has it as its parent. -/
theorem BuiltCfg.parent {a i : ℕ} (hlast : blockLastInstruction ir a = some i) :
    (ir.insts i).parent = a :=
  (h.inv.inside i a (List.mem_of_getLast? hlast)).1

/-- The use list of a block holds its incoming edges. -/
theorem BuiltCfg.mem_uses {u : Use} {b : ℕ} : u ∈ ir.uses (.block b) ↔ IsEdgeUse ir entry u b := by
  rw [h.inv.defUse.uses.mem]
  constructor
  · intro hop
    have hjump := h.inv.jump u b hop
    have hlt : u.inst < ir.instCount := by
      by_contra hge
      have hnone := h.inv.defUse.fresh u (Nat.le_of_not_lt hge)
      rw [Ir.operand_eq_some.mp hop] at hnone
      cases hnone
    obtain ⟨a, ha, hmem⟩ := h.inserted u.inst hlt hjump
    refine ⟨a, h.reachable a ha, h.inv.last u.inst a hmem hjump, ?_, hop⟩
    intro hphi
    rw [hphi] at hjump
    cases hjump
  · rintro ⟨a, -, -, -, hop⟩
    exact hop

/-- The predecessors of a block. -/
theorem BuiltCfg.mem_blockPredecessors {a b : ℕ} :
    a ∈ blockPredecessors ir b ↔ cfgEdge ir a b := by
  unfold blockPredecessors cfgEdge
  rw [List.mem_map]
  constructor
  · rintro ⟨u, hu, rfl⟩
    obtain ⟨a, ha, hlast, htype, hop⟩ := h.mem_uses.mp hu
    rw [h.parent hlast]
    exact mem_blockSuccessors.mpr ⟨u, hlast, htype, hop⟩
  · intro hE
    obtain ⟨u, hlast, htype, hop⟩ := mem_blockSuccessors.mp hE
    obtain ⟨-, -, ha⟩ := h.inv.inside _ _ (List.mem_of_getLast? hlast)
    exact ⟨u, h.mem_uses.mpr ⟨a, h.reachable a ha, hlast, htype, hop⟩, h.parent hlast⟩

end Graph
