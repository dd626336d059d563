/-
# Predecessors and successors

The successors of a block are read off its last instruction, its predecessors off the uses
of the block.  In a created function the two agree (`created_edgesAgree`).  The conversion
adds uses of blocks, the operands of phis, and so the block of a phi is listed as a
predecessor of the blocks that the phi has values for (`Converted.mem_predecessors`).  The
two still agree if and only if the block of the phi leads back to these blocks
(`createFunction_edgesAgree_iff`).
-/
import MCompiler.SsaPhiOperands

open FlowGraph

/-- **Predecessors and successors agree** in the reachable blocks. -/
def EdgesAgree (ir : Ir) (entry : ℕ) : Prop :=
  ∀ p b, Reachable (cfgEdge ir) entry p → Reachable (cfgEdge ir) entry b →
    (p ∈ blockPredecessors ir b ↔ b ∈ blockSuccessors ir p)

/-- The predecessors are the parents of the instructions that have the block as an operand. -/
theorem mem_blockPredecessors {ir : Ir} (h : UseLists ir) {p b : ℕ} :
    p ∈ blockPredecessors ir b ↔
      ∃ i, some (.block b) ∈ (ir.insts i).uses ∧ (ir.insts i).parent = p := by
  unfold blockPredecessors
  rw [List.mem_map]
  constructor
  · rintro ⟨u, hu, hp⟩
    exact ⟨u.inst, mem_uses_of_operand ((h.mem _ u).mp hu), hp⟩
  · rintro ⟨i, hi, hp⟩
    obtain ⟨k, hk⟩ := List.mem_iff_getElem?.mp hi
    exact ⟨⟨i, k⟩, (h.mem _ _).mpr (Ir.operand_eq_some.mpr hk), hp⟩

/-- A successor lists the block as its predecessor. -/
theorem HeapOk.mem_predecessors {ir : Ir} (h : HeapOk ir) {p b : ℕ}
    (hb : b ∈ blockSuccessors ir p) : p ∈ blockPredecessors ir b := by
  obtain ⟨l, i, hl, hi⟩ := exists_last_of_edge hb
  exact (mem_blockPredecessors h.uses).mpr ⟨i, hi, h.parent p i (by rw [hl]; simp)⟩

/-! ## Created functions -/

/-- Every instruction that was made is in the block it names as its parent. -/
theorem Builds.linked {S T : ℕ → Prop} {ir ir' : Ir} (h : Builds S T ir ir')
    (hheap : HeapClosed ir) {i : ℕ} (hge : ir.instCount ≤ i) (hlt : i < ir'.instCount) :
    Linked ir' i := by
  induction h with
  | refl => exact absurd hge (Nat.not_le_of_lt hlt)
  | const num _ ih => exact ih hlt
  | @block ir' hbuilds ih =>
      unfold Linked
      rw [(hbuilds.heapClosed hheap).blockNew_blocks]
      exact ih hlt
  | @emit ir' b type dataType uses _ _ _ _ _ ih =>
      unfold Linked
      rw [mem_blocks_emit]
      by_cases hi : i = ir'.instCount
      · subst hi
        rw [emit_insts_self]
        exact .inr ⟨rfl, rfl⟩
      · rw [emit_insts_of_ne _ _ _ _ _ hi]
        exact .inl (ih (Nat.lt_of_le_of_ne (Nat.le_of_lt_succ hlt) hi))

section Created

variable {c inner : IrCreator} {body : Statements} (hheap : HeapClosed c.ctx)
  (h : createStatements c.enterBlock body.toAst = some inner)
include hheap h

/-- An instruction with an operand among the blocks of the function is one of its own. -/
theorem created_linked {i b : ℕ} (hb : c.ctx.blockCount ≤ b)
    (hi : some (.block b) ∈ (inner.ctx.insts i).uses) :
    c.ctx.instCount ≤ i ∧ Linked inner.ctx i := by
  have hbuilds := created_builds hheap h
  have hge : c.ctx.instCount ≤ i := by
    by_contra hlt
    have hsame : inner.ctx.insts i = c.ctx.insts i :=
      hbuilds.grows.insts i (Nat.lt_of_not_le hlt)
    rw [hsame] at hi
    -- the operands of older instructions are older blocks
    obtain ⟨k, hk⟩ := List.mem_iff_getElem?.mp hi
    have hold := hheap.block ⟨i, k⟩ b (Ir.operand_eq_some.mpr hk)
    exact absurd hold (Nat.not_lt_of_le hb)
  refine ⟨hge, hbuilds.linked hheap.block_new hge (Nat.lt_of_not_le fun hle => ?_)⟩
  rw [(created_heap hheap h).fresh i hle] at hi
  cases hi

/-- **Before the conversion.** -/
theorem created_edgesAgree : EdgesAgree inner.ctx c.ctx.blockCount := by
  have hheap' := created_heap hheap h
  intro p b hp hb
  refine ⟨fun hpred => ?_, hheap'.toHeapOk.mem_predecessors⟩
  obtain ⟨i, hi, rfl⟩ := (mem_blockPredecessors hheap'.uses).mp hpred
  obtain ⟨hge, hlinked⟩ := created_linked hheap h (created_reachable hheap h hb) hi
  obtain ⟨pre, post, hblock⟩ := List.append_of_mem hlinked
  rcases created_jumps hheap h _ pre i post b hblock hge (hheap'.allocated _ i hlinked) hi with
    rfl | ⟨init, j, lo, hi', rfl, -, hout, hlo, hhi, hgate⟩
  · -- the last instruction of its block
    obtain ⟨k, hk⟩ := List.mem_iff_getElem?.mp hi
    refine mem_blockSuccessors.mpr ⟨⟨i, k⟩, ?_, (createdForm hheap h).phi _ hp i hlinked,
      Ir.operand_eq_some.mpr hk⟩
    unfold blockLastInstruction
    rw [hblock]
    simp
  · -- a jump that is never taken leads to blocks that are not reachable
    rw [← List.cons_append, ← List.append_assoc] at hblock
    have hentry : c.ctx.blockCount < lo :=
      Nat.lt_of_le_of_lt (created_reachable hheap h hp) hgate.1
    exact absurd hb (hgate.not_reachable (.inl hentry) hblock hout hlo hhi)

end Created

/-! ## Converted functions -/

section Converted

variable {ir mid mid' ir' : Ir} {entry : ℕ} {phis : ℕ → List PhiInfo} {r : Renaming}
  {done : List ℕ} {pushed : List PhiOperand} {b p i : ℕ}

/-- No value of a phi is a block. -/
theorem Converted.value_ne_block (h : Converted ir entry phis r done pushed mid mid' ir')
    {o : PhiOperand} (ho : o ∈ pushed) (x : ℕ) : o.value ≠ .block x := by
  intro hx
  obtain ⟨hreach, -, -, q, -, -, hvalue⟩ := (h.renamed.mem_pushed o).mp ho
  have hsettled := h.renamed.env o.block hreach q.rId o.value hvalue
  rw [hx] at hsettled
  exact hsettled

/-- The blocks among the operands: the old ones and those of the pairs of phis. -/
theorem Converted.block_mem_uses (h : Converted ir entry phis r done pushed mid mid' ir')
    (hheap : HeapOk ir) : some (.block b) ∈ (ir'.insts i).uses ↔
      some (.block b) ∈ (ir.insts i).uses ∨ ∃ o ∈ pushed, o.phi = i ∧ o.block = b := by
  rw [h.only.insts, h.renamed.rewritten.insts]
  show some (.block b) ∈ (mid.insts i).uses.map (Option.map (sub r.value)) ++ phiUses pushed i ↔ _
  rw [List.mem_append]
  refine or_congr ?_ ?_
  · by_cases hi : i < ir.instCount
    · rw [h.filled.insts i hi, List.mem_map]
      constructor
      · rintro ⟨x, hx, hsub⟩
        obtain ⟨w, rfl, hw⟩ := Option.map_eq_some_iff.mp hsub
        -- results are not replaced by blocks
        cases w with
        | inst j => exact absurd hw (h.renamed.value_ne_block j b)
        | const c => cases hw
        | block x =>
            cases hw
            exact hx
      · exact fun hb => ⟨_, hb, rfl⟩
    · have hge := Nat.le_of_not_lt hi
      simp [h.filled.unused i hge, hheap.fresh i hge]
  · unfold phiUses
    rw [List.mem_flatMap]
    refine exists_congr fun o => and_congr_right fun ho => ?_
    by_cases hphi : o.phi = i
    · rw [if_pos hphi, List.mem_pair]
      constructor
      · rintro (hb | hb)
        · exact ⟨hphi, (Value.block.inj (Option.some.inj hb)).symm⟩
        · exact absurd (Option.some.inj hb).symm (h.value_ne_block ho b)
      · rintro ⟨-, rfl⟩
        exact .inl rfl
    · simp [hphi]

/-- **The predecessors after the conversion**: the old ones, and the block of each phi that has
a pair for the block. -/
theorem Converted.mem_predecessors (h : Converted ir entry phis r done pushed mid mid' ir')
    (hheap : HeapOk ir) : p ∈ blockPredecessors ir' b ↔
      p ∈ blockPredecessors ir b ∨ ∃ o ∈ pushed, o.block = b ∧ (mid.insts o.phi).parent = p := by
  rw [mem_blockPredecessors h.useLists, mem_blockPredecessors hheap.uses]
  have hparent : ∀ j, (ir'.insts j).parent = (mid.insts j).parent := by
    intro j
    rw [h.only.insts, h.renamed.rewritten.parent]
  simp only [h.block_mem_uses hheap, hparent, or_and_right, exists_or]
  refine or_congr (exists_congr fun j => and_congr_right fun hj => ?_) ?_
  · have hlt : j < ir.instCount := Nat.lt_of_not_le fun hle => by
      rw [hheap.fresh j hle] at hj
      cases hj
    rw [h.filled.insts j hlt]
  · constructor
    · rintro ⟨j, ⟨o, ho, rfl, hb⟩, hp⟩
      exact ⟨o, ho, hb, hp⟩
    · rintro ⟨o, ho, hb, hp⟩
      exact ⟨o.phi, ⟨o, ho, rfl, hb⟩, hp⟩

/-- The phis of a block that have a pair for the reachable block `b`. -/
theorem Converted.exists_pushed (h : Converted ir entry phis r done pushed mid mid' ir') :
    (∃ o ∈ pushed, o.block = b ∧ (mid.insts o.phi).parent = p) ↔
      Reachable (cfgEdge mid) entry b ∧ cfgEdge mid b p ∧
        ∃ a, HasPhi phis p a ∧ r.outEnv b a ≠ none := by
  constructor
  · rintro ⟨o, ho, rfl, hp⟩
    obtain ⟨hreach, s, hs, q, hq, hphi, hvalue⟩ := (h.renamed.mem_pushed o).mp ho
    rw [← hphi, (h.filled.phi s q hq).2.2.2] at hp
    subst hp
    exact ⟨hreach, hs, q.rId, ⟨q, hq, rfl⟩, by rw [hvalue]; exact Option.some_ne_none _⟩
  · rintro ⟨hreach, hE, _, ⟨q, hq, rfl⟩, hvalue⟩
    obtain ⟨v, hv⟩ := Option.ne_none_iff_exists'.mp hvalue
    exact ⟨⟨b, q.phiInst, v⟩, (h.mem_pushed hq v).mpr ⟨hreach, hE, hv⟩, rfl,
      (h.filled.phi p q hq).2.2.2⟩

/-- **If they agreed before**, they agree after the conversion if and only if the block of each
phi leads back to the blocks that it has pairs for. -/
theorem Converted.edgesAgree_iff (h : Converted ir entry phis r done pushed mid mid' ir')
    (hheap : HeapOk ir) (hagree : EdgesAgree ir entry) : EdgesAgree ir' entry ↔
      ∀ o ∈ pushed, cfgEdge ir (mid.insts o.phi).parent o.block := by
  have hreach : ∀ x, Reachable (cfgEdge ir') entry x ↔ Reachable (cfgEdge ir) entry x := fun x =>
    (reachable_congr fun a ha y => h.cfgEdge_iff hheap ha y).symm
  constructor
  · intro hagree' o ho
    obtain ⟨hb, hE, -⟩ := h.exists_pushed.mp ⟨o, ho, rfl, rfl⟩
    have hb' := (h.reachable_iff hheap).mp hb
    have hp' : Reachable (cfgEdge ir) entry (mid.insts o.phi).parent := by
      rw [h.filled.cfgEdge_eq hheap] at hE
      exact hb'.step hE
    have hpred := (h.mem_predecessors hheap).mpr (.inr ⟨o, ho, rfl, rfl⟩)
    exact (h.cfgEdge_iff hheap hp' _).mpr
      ((hagree' _ _ ((hreach _).mpr hp') ((hreach _).mpr hb')).mp hpred)
  · intro hback p b hp hb
    rw [hreach] at hp hb
    show _ ↔ cfgEdge ir' p b
    rw [h.mem_predecessors hheap, ← h.cfgEdge_iff hheap hp]
    constructor
    · rintro (hpred | ⟨o, ho, rfl, rfl⟩)
      · exact (hagree p b hp hb).mp hpred
      · exact hback o ho
    · exact fun hE => .inl ((hagree p b hp hb).mpr hE)

end Converted

/-! ## The conversion -/

/-- The block `b` gets a phi for the register `a` : it is on the iterated dominance frontier of
the blocks that assign `a`, or on their frontier if `a` is the first variable. -/
def GetsPhi (ir : Ir) (entry : ℕ) (doms : Dominators) (df : DomFrontiers) (a b : ℕ) : Prop :=
  PlacedAt df (firstVariable ir doms ≠ some a) (Assigning ir entry a) b

/-- The register `a` has a value at the end of the block `b` : a dominator assigns it or gets a
phi for it. -/
def HoldsValue (ir : Ir) (entry : ℕ) (doms : Dominators) (df : DomFrontiers) (a b : ℕ) : Prop :=
  ∃ x, Dominates (cfgEdge ir) entry x b ∧ (Assigning ir entry a x ∨ GetsPhi ir entry doms df a x)

/-- **Phis lead back**: a block that gets a phi leads back to each predecessor at whose end the
register of the phi has a value. -/
def PhisLeadBack (ir : Ir) (entry : ℕ) (doms : Dominators) (df : DomFrontiers) : Prop :=
  ∀ a p b, GetsPhi ir entry doms df a p → Reachable (cfgEdge ir) entry b → cfgEdge ir b p →
    HoldsValue ir entry doms df a b → cfgEdge ir p b

/-- **After the conversion**, for registers that are told apart: what agreed before agrees if and
only if phis lead back. -/
theorem ssaConvert_edgesAgree {ir ir' : Ir} {entry : ℕ} {doms : Dominators} {df : DomFrontiers}
    (hheap : HeapOk ir) (hdoms : CorrectDoms ir entry doms) (hform : SsaFunction ir entry)
    (hdf : ∀ x, Reachable (cfgEdge ir) entry x → ∀ y ∈ domfrontiersGet df x,
      Reachable (cfgEdge ir) entry y) (hagree : EdgesAgree ir entry) {fuel : ℕ}
    (hrun : ssaConvert doms df fuel ir entry = some ir') :
    EdgesAgree ir' entry ↔ PhisLeadBack ir entry doms df := by
  obtain ⟨blockInfo, vm, phis, s, r, done, pushed, mid', han, -, hplaced, -, h⟩ :=
    converted_of_ssaConvert hheap hdoms hform hdf hrun
  obtain ⟨doms', hinput⟩ := h.input
  have hphi : ∀ a b, HasPhi phis b a ↔ GetsPhi ir entry doms df a b := fun a b =>
    hplaced.hasPhi_iff hdoms hform.toLoadAssignForm han
  have hcfg := h.filled.cfgEdge_eq hheap
  -- where the registers have values
  have hvalue : ∀ a b, Reachable (cfgEdge ir) entry b →
      (r.outEnv b a ≠ none ↔ HoldsValue ir entry doms df a b) := by
    intro a b hb
    have hb' := hb
    rw [← hcfg] at hb'
    rw [h.renamed.outEnv_ne_none hinput.toRenameForm (fun x hx y hy => hy.reachable hx) hb' hb' a,
      hcfg]
    refine exists_congr fun x => and_congr_right fun hx => ?_
    rw [h.filled.writes_iff hheap]
    exact or_congr (and_iff_right (hx.reachable hb)).symm (hphi a x)
  rw [h.edgesAgree_iff hheap hagree]
  constructor
  · intro hback a p b hgets hb hE hholds
    obtain ⟨o, ho, rfl, rfl⟩ := h.exists_pushed.mpr
      ⟨hcfg.symm ▸ hb, hcfg.symm ▸ hE, a, (hphi a p).mpr hgets, (hvalue a b hb).mpr hholds⟩
    exact hback o ho
  · intro hback o ho
    obtain ⟨hb, hE, a, hgets, hholds⟩ := h.exists_pushed.mp ⟨o, ho, rfl, rfl⟩
    rw [hcfg] at hb hE
    exact hback a _ _ ((hphi a _).mp hgets) hb hE ((hvalue a _ hb).mp hholds)

/-! ## Created functions, before and after -/

theorem edgesAgree_mapRegs {ir : Ir} {entry : ℕ} {f : ℕ → ℕ} :
    EdgesAgree (ir.mapRegs f) entry ↔ EdgesAgree ir entry := by
  unfold EdgesAgree
  rw [cfgEdge_mapRegs]
  simp only [mapRegs_blockSuccessors]
  exact Iff.rfl

/-- **Predecessors and successors of a created function** agree, and after the conversion they
agree if and only if phis lead back.  Registers are told apart by their ids in 32 bits, as the
conversion does. -/
theorem createFunction_edgesAgree_iff {creator creator' : IrCreator} {f : AstNode} {entry : ℕ}
    (hheap : HeapClosed creator.ctx)
    (hcreate : irCreatorCreateFunction creator f = some (creator', entry)) :
    EdgesAgree creator'.ctx entry ∧
      ∀ doms df, CorrectDoms creator'.ctx entry doms → CorrectFrontiers creator'.ctx entry df →
        ∀ fuel ir', ssaConvert doms df fuel creator'.ctx entry = some ir' →
          (EdgesAgree ir' entry ↔ PhisLeadBack (creator'.ctx.mapRegs reg32) entry doms df) := by
  have hagree : EdgesAgree creator'.ctx entry := by
    obtain ⟨body, inner, hinner, hctx, rfl⟩ := exists_created hcreate
    rw [hctx]
    exact created_edgesAgree hheap hinner
  obtain ⟨hheap', hform⟩ := createFunction_form hheap hcreate
  refine ⟨hagree, fun doms df hdoms hdf fuel ir' hrun => ?_⟩
  rw [← edgesAgree_mapRegs (f := reg32)]
  exact ssaConvert_edgesAgree hheap'.mapRegs hdoms.mapRegs (hform.ssaFunction intReg_reg32)
    hdf.mapRegs.reachable (edgesAgree_mapRegs.mpr hagree) (ssaConvert_reg32 hrun)

/-- `int64 v = 1; if (1) v = 2;`, with an empty name for the variable. -/
def assignIf : Statements :=
  .declare .KW_INT64 .ASSIGN [] (.number 1)
    (.ifThen (.number 1) (.assign [] (.number 2) .done) .done)

/-- The dominators of its blocks: the block `2` follows the `if`. -/
def assignIfChain : ℕ → List ℕ
  | 0 => [0]
  | 1 => [0, 1]
  | _ => [0, 2]

/-- The analyses and the conversion of this function. -/
theorem assignIf_runs : ∃ r, irCreatorCreateFunction (irCreatorInit irContextInit)
      (functionAst [] .KW_VOID assignIf) = some r ∧ r.2 = 0 ∧
    Chains r.1.ctx 0 3 assignIfChain ∧
    ∃ doms, dominatorsCompute r.1.ctx 20 0 = some doms ∧ ChainsDoms 0 3 assignIfChain doms ∧
    ∃ df, domfrontiersCompute r.1.ctx doms 20 = some df ∧
      ChainsFrontiers r.1.ctx 3 assignIfChain df ∧
    ∃ ir', ssaConvertStored doms df 20 r.1.ctx 0 = some ir' ∧
      2 ∈ blockSuccessors ir' 0 ∧ 2 ∈ blockPredecessors ir' 0 ∧ blockSuccessors ir' 2 = [] := by
  decide +kernel

/-- **A block that is a predecessor but has no successor.**  After the conversion of `assignIf`
the block of the phi is listed as a predecessor of the entry. -/
theorem createFunction_not_edgesAgree : ∃ creator', irCreatorCreateFunction
      (irCreatorInit irContextInit) (functionAst [] .KW_VOID assignIf) = some (creator', 0) ∧
    ∃ doms, dominatorsCompute creator'.ctx 20 0 = some doms ∧ CorrectDoms creator'.ctx 0 doms ∧
    ∃ df, domfrontiersCompute creator'.ctx doms 20 = some df ∧
      CorrectFrontiers creator'.ctx 0 df ∧
    ∃ ir', ssaConvertStored doms df 20 creator'.ctx 0 = some ir' ∧ ¬ EdgesAgree ir' 0 := by
  obtain ⟨⟨creator', entry⟩, hcreate, rfl, hchains, doms, hdoms, hcheck, df, hdf, hfrontiers, ir',
    hrun, hedge, hpred, hnone⟩ := assignIf_runs
  refine ⟨creator', hcreate, doms, hdoms, hchains.correctDoms hcheck, df, hdf,
    hchains.correctFrontiers hfrontiers, ir', hrun, fun hall => ?_⟩
  have hsucc := (hall 2 0 (Reachable.root.step hedge) .root).mp hpred
  rw [hnone] at hsucc
  cases hsucc
