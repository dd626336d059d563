/-
# Created functions and the buffers of the conversion

What the conversion guarantees for the functions that IR creation makes, within its buffers.  Ids
of registers are told apart in 32 bits, so that the function that has to fit the buffers is the
created one with its ids in 32 bits (`FunctionForm.stored_iff`).

* `createFunction_edgesAgree_stored_iff`, `createFunction_stored_phisFilled`,
  `createFunction_converts_iff` : the edges, the phis and the end of a conversion;
* `convertFunctionStored` : the chain of `tests/ssa_test.c` within the buffers of the conversion,
  which are large enough if and only if the function fits them
  (`FunctionConverted.stored_iff`).
-/
import MCompiler.SsaExecution
import MCompiler.SsaRoom

open FlowGraph

/-! ## Ids of 32 bits -/

section Created

variable {ir ir' ir'' : Ir} {entry fuel : ℕ} {doms : Dominators} {df : DomFrontiers}

/-- Both conversions give the same function. -/
theorem stored_unique (hstored : ssaConvertStored doms df fuel ir entry = some ir'')
    (hrun : ssaConvert doms df fuel ir entry = some ir') : ir'' = ir' := by
  have hmore := ssaConvert_of_stored hstored (le_max_left 126 fuel) (le_max_right _ _)
  rw [ssaConvert_mono (le_max_right 126 fuel) hrun] at hmore
  exact (Option.some.inj hmore).symm

/-- A run on a created function stays within the buffers if and only if the function fits them. -/
theorem FunctionForm.stored_iff (hform : FunctionForm ir entry) (hheap : HeapOk ir)
    (hdoms : CorrectDoms ir entry doms) (hdf : CorrectFrontiers ir entry df)
    (hrun : ssaConvert doms df fuel ir entry = some ir') :
    ssaConvertStored doms df fuel ir entry = some ir' ↔
      ConversionFits (ir.mapRegs reg32) entry doms df := by
  rw [← ssaConvertStored_iff hheap.mapRegs hdoms.mapRegs (hform.ssaFunction intReg_reg32)
    hdf.mapRegs.reachable (ssaConvert_reg32 hrun), ssaConvertStored_mapRegs ir toInt_reg32]
  constructor
  · intro h
    rw [h]
    rfl
  · intro h
    obtain ⟨ir'', hstored, -⟩ := Option.map_eq_some_iff.mp h
    rw [hstored, stored_unique hstored hrun]

/-- A created function that is converted is converted within the buffers if and only if it fits
them. -/
theorem FunctionForm.storedRuns_iff (hform : FunctionForm ir entry) (hheap : HeapOk ir)
    (hdoms : CorrectDoms ir entry doms) (hdf : CorrectFrontiers ir entry df)
    (hruns : ∃ bound, ∀ fuel, bound ≤ fuel → ∃ ir', ssaConvert doms df fuel ir entry = some ir') :
    (∃ bound, ∀ fuel, bound ≤ fuel → ∃ ir', ssaConvertStored doms df fuel ir entry = some ir') ↔
      ConversionFits (ir.mapRegs reg32) entry doms df := by
  obtain ⟨bound, hruns⟩ := hruns
  constructor
  · rintro ⟨bound', hstored⟩
    obtain ⟨ir', hrun⟩ := hruns (max bound bound') (le_max_left _ _)
    obtain ⟨ir'', hir''⟩ := hstored (max bound bound') (le_max_right _ _)
    rw [stored_unique hir'' hrun] at hir''
    exact (hform.stored_iff hheap hdoms hdf hrun).mp hir''
  · intro hfits
    refine ⟨bound, fun fuel hfuel => ?_⟩
    obtain ⟨ir', hrun⟩ := hruns fuel hfuel
    exact ⟨ir', (hform.stored_iff hheap hdoms hdf hrun).mpr hfits⟩

end Created

/-! ## Edges -/

/-- **Predecessors and successors of a created function** agree.  A conversion stays within its
buffers and they agree after it, if and only if the function fits the buffers and phis lead back.
Registers are told apart by their ids in 32 bits, as the conversion does. -/
theorem createFunction_edgesAgree_stored_iff {creator creator' : IrCreator} {f : AstNode}
    {entry : ℕ} (hheap : HeapClosed creator.ctx)
    (hcreate : irCreatorCreateFunction creator f = some (creator', entry)) :
    EdgesAgree creator'.ctx entry ∧
      ∀ doms df, CorrectDoms creator'.ctx entry doms → CorrectFrontiers creator'.ctx entry df →
        ∀ fuel ir', ssaConvert doms df fuel creator'.ctx entry = some ir' →
          (ssaConvertStored doms df fuel creator'.ctx entry = some ir' ∧ EdgesAgree ir' entry ↔
            ConversionFits (creator'.ctx.mapRegs reg32) entry doms df ∧
              PhisLeadBack (creator'.ctx.mapRegs reg32) entry doms df) := by
  obtain ⟨hagree, hafter⟩ := createFunction_edgesAgree_iff hheap hcreate
  obtain ⟨hheap', hform⟩ := createFunction_form hheap hcreate
  refine ⟨hagree, fun doms df hdoms hdf fuel ir' hrun => ?_⟩
  rw [hform.stored_iff hheap' hdoms hdf hrun, hafter doms df hdoms hdf fuel ir' hrun]

/-- The theorem at `selfInit`. -/
theorem createFunction_edgesAgree_stored_selfInit : ∃ creator' doms df ir',
    irCreatorCreateFunction (irCreatorInit irContextInit) (functionAst [] .KW_VOID selfInit) =
      some (creator', 0) ∧ ssaConvert doms df 126 creator'.ctx 0 = some ir' ∧
    EdgesAgree creator'.ctx 0 ∧
    (ssaConvertStored doms df 126 creator'.ctx 0 = some ir' ∧ EdgesAgree ir' 0 ↔
      ConversionFits (creator'.ctx.mapRegs reg32) 0 doms df ∧
        PhisLeadBack (creator'.ctx.mapRegs reg32) 0 doms df) := by
  obtain ⟨⟨creator', entry⟩, hcreate, rfl, hchains, doms, -, hcheck, df, -, hfrontiers, ir',
    hstored, -⟩ := selfInit_runs
  have hrun := ssaConvert_of_stored hstored (Nat.le_refl 126) (by decide)
  obtain ⟨hbefore, hafter⟩ :=
    createFunction_edgesAgree_stored_iff heapClosed_irContextInit hcreate
  exact ⟨creator', doms, df, ir', hcreate, hrun, hbefore, hafter doms df
    (hchains.correctDoms hcheck) (hchains.correctFrontiers hfrontiers) 126 ir' hrun⟩

/-! ## Phis -/

/-- **Phis of a created function** after a conversion within the buffers: one pair for each
predecessor at whose end the variable has a value. -/
theorem createFunction_stored_phisFilled {creator creator' : IrCreator} {f : AstNode} {entry : ℕ}
    (hheap : HeapClosed creator.ctx)
    (hcreate : irCreatorCreateFunction creator f = some (creator', entry)) (doms : Dominators)
    (df : DomFrontiers) (hdoms : CorrectDoms creator'.ctx entry doms)
    (hdf : CorrectFrontiers creator'.ctx entry df) (fuel : ℕ) (ir' : Ir)
    (hstored : ssaConvertStored doms df fuel creator'.ctx entry = some ir') :
    ∃ blockInfo vm s, analyzeBlocks creator'.ctx doms = some (blockInfo, vm) ∧
      placePhisStored doms df creator'.ctx blockInfo vm = some s ∧
      PhisFilled creator'.ctx entry doms s ir' := by
  have hrun := ssaConvert_of_stored hstored (le_max_left 126 fuel) (le_max_right _ _)
  obtain ⟨blockInfo, vm, s, hanalyze, hplace, hfilled⟩ :=
    createFunction_phisFilled hheap hcreate doms df hdoms hdf _ ir' hrun
  exact ⟨blockInfo, vm, s, hanalyze,
    placed_of_stored hstored (le_max_left 126 fuel) hanalyze hplace, hfilled⟩

/-- The theorem at `selfInit`. -/
theorem createFunction_stored_phisFilled_selfInit : ∃ creator' doms df ir',
    irCreatorCreateFunction (irCreatorInit irContextInit) (functionAst [] .KW_VOID selfInit) =
      some (creator', 0) ∧ ssaConvertStored doms df 20 creator'.ctx 0 = some ir' ∧
    ∃ blockInfo vm s, analyzeBlocks creator'.ctx doms = some (blockInfo, vm) ∧
      placePhisStored doms df creator'.ctx blockInfo vm = some s ∧
      PhisFilled creator'.ctx 0 doms s ir' := by
  obtain ⟨⟨creator', entry⟩, hcreate, rfl, hchains, doms, -, hcheck, df, -, hfrontiers, ir', hrun,
    -⟩ := selfInit_runs
  exact ⟨creator', doms, df, ir', hcreate, hrun, createFunction_stored_phisFilled
    heapClosed_irContextInit hcreate doms df (hchains.correctDoms hcheck)
    (hchains.correctFrontiers hfrontiers) 20 ir' hrun⟩

/-! ## The end of the conversion -/

/-- **A function with well-scoped statements can be converted.**  It is created, its loads
are dominated by assigns, and the conversion ends within its buffers without a missing value, if
and only if the function fits them. -/
theorem createFunction_converts_iff {creator : IrCreator} (hheap : HeapClosed creator.ctx)
    (hinfo : creator.blockInfo = []) (name : Range) (returnType : TokenType) {body : Statements}
    (hscoped : body.WellScoped [fun _ => none] creator.regCount) :
    ∃ creator' entry,
      irCreatorCreateFunction creator (functionAst name returnType body) =
        some (creator', entry) ∧
      LoadsDominated creator'.ctx entry ∧
      ∀ doms df, CorrectDoms creator'.ctx entry doms → CorrectFrontiers creator'.ctx entry df →
        ((∃ bound, ∀ fuel, bound ≤ fuel →
            ∃ ir', ssaConvertStored doms df fuel creator'.ctx entry = some ir') ↔
          ConversionFits (creator'.ctx.mapRegs reg32) entry doms df) := by
  obtain ⟨creator', entry, hcreate, hload, hruns⟩ :=
    irCreatorCreateFunction_convertible hheap hinfo name returnType hscoped
  obtain ⟨hheap', hform⟩ := createFunction_form hheap hcreate
  exact ⟨creator', entry, hcreate, hload, fun doms df hdoms hdf =>
    hform.storedRuns_iff hheap' hdoms hdf (hruns doms df hdoms hdf)⟩

/-- The theorem at the loop that counts and the first context. -/
theorem createFunction_converts_countLoop : ∃ creator' entry,
    irCreatorCreateFunction (irCreatorInit irContextInit) (functionAst [] .KW_VOID countLoop) =
      some (creator', entry) ∧
    LoadsDominated creator'.ctx entry ∧
    ∀ doms df, CorrectDoms creator'.ctx entry doms → CorrectFrontiers creator'.ctx entry df →
      ((∃ bound, ∀ fuel, bound ≤ fuel →
          ∃ ir', ssaConvertStored doms df fuel creator'.ctx entry = some ir') ↔
        ConversionFits (creator'.ctx.mapRegs reg32) entry doms df) := by
  have hscoped : countLoop.WellScoped [fun _ => none] 0 := by decide
  exact createFunction_converts_iff heapClosed_irContextInit rfl _ _ hscoped

/-- `v = v;` for a number of times, with an empty name for the variable. -/
def copies : ℕ → Statements
  | 0 => .done
  | n + 1 => .assign [] (.var []) (copies n)

/-- `int64 v = 1; v = v; …` with 251 loads and assigns in its only block. -/
def manyCopies : Statements := .declare .KW_INT64 .ASSIGN [] (.number 1) (copies 125)

/-! ## Functions that fit -/

section Fits

variable {c inner : IrCreator} {body : Statements} (hheap : HeapClosed c.ctx)
  (h : createStatements c.enterBlock body.toAst = some inner)
include hheap h

/-- A created block has at most two predecessors. -/
theorem created_predecessors (b : ℕ) :
    {q | Reachable (cfgEdge inner.ctx) c.ctx.blockCount q ∧
      b ∈ blockSuccessors inner.ctx q}.ncard ≤ 2 := by
  have hheap' := (created_heap hheap h).toHeapOk
  by_cases hb : Reachable (cfgEdge inner.ctx) c.ctx.blockCount b
  · refine (ncard_le_length fun q hq => hheap'.mem_predecessors hq.2).trans ?_
    unfold blockPredecessors
    rw [List.length_map]
    exact created_fewUses hheap h hb
  · have hempty : {q | Reachable (cfgEdge inner.ctx) c.ctx.blockCount q ∧
        b ∈ blockSuccessors inner.ctx q} = ∅ :=
      Set.eq_empty_iff_forall_notMem.mpr fun q hq => hb (hq.1.step hq.2)
    rw [hempty, Set.ncard_empty]
    exact Nat.zero_le 2

/-- The loads and assigns are those of the code of the body. -/
theorem created_loadAssigns (hinfo : c.blockInfo = []) {doms : Dominators}
    (hdoms : CorrectDoms inner.ctx c.ctx.blockCount doms) :
    (allLoadAssigns inner.ctx doms).length ≤
      (body.code (fun _ => none) [[]] c.regCount).countP InstType.isLoadAssign := by
  have hheap' := created_heap hheap h
  have hemitted := created_emitted h hinfo
  have hsub : allLoadAssigns inner.ctx doms ⊆
      (List.range' c.ctx.instCount (body.code (fun _ => none) [[]] c.regCount).length).filter
        fun i => (inner.ctx.insts i).type.isLoadAssign := by
    intro i hi
    obtain ⟨b, hb, hi⟩ := List.mem_flatMap.mp hi
    obtain ⟨hib, htype⟩ := mem_loadAssigns.mp hi
    have hreach := created_reachable hheap h ((hdoms.mem b).mp hb)
    have hlt := hheap'.allocated b i hib
    rw [hemitted.instCount] at hlt
    exact List.mem_filter.mpr
      ⟨List.mem_range'_1.mpr ⟨(created_new hheap h hreach hib).1, hlt⟩, htype⟩
  refine ((hdoms.nodup_allLoadAssigns hheap'.toHeapOk).subperm hsub).length_le.trans ?_
  rw [← List.countP_eq_length_filter]
  conv_rhs => rw [← hemitted.types, List.countP_map]
  exact le_rfl

/-- **A created function fits the buffers** of the conversion if it has at most 124 blocks besides
the entry, and these with its loads and assigns are at most 249. -/
theorem created_conversionFits (hinfo : c.blockInfo = []) {doms : Dominators} {df : DomFrontiers}
    (hdoms : CorrectDoms inner.ctx c.ctx.blockCount doms)
    (hdf : CorrectFrontiers inner.ctx c.ctx.blockCount df) (hblocks : body.liveBlocks ≤ 124)
    (hcode : (body.code (fun _ => none) [[]] c.regCount).countP InstType.isLoadAssign +
      body.liveBlocks ≤ 249) : ConversionFits inner.ctx c.ctx.blockCount doms df := by
  have hcount : doms.elementCount = 1 + body.liveBlocks := by
    rw [← created_ncard hheap h, hdoms.count]
    exact (ncard_eq_length hdoms.nodup fun b => (hdoms.mem b).symm).symm
  have hle := created_loadAssigns hheap h hinfo hdoms
  exact .of_few hdoms hdf.reachable (by omega)
    (fun b => (created_predecessors hheap h b).trans (by decide)) (by omega)

/-- The code of a function of one block is in this block. -/
theorem created_singleBlock (hinfo : c.blockInfo = []) (hone : body.blockCount = 0) :
    (body.code (fun _ => none) [[]] c.regCount).countP InstType.isLoadAssign ≤
      (loadAssigns inner.ctx (inner.ctx.blocks c.ctx.blockCount)).length := by
  have hheap' := created_heap hheap h
  have hbuilds := created_builds hheap h
  have hemitted := created_emitted h hinfo
  have hsub : ((List.range' c.ctx.instCount (body.code (fun _ => none) [[]] c.regCount).length).filter
      fun i => (inner.ctx.insts i).type.isLoadAssign) ⊆
        loadAssigns inner.ctx (inner.ctx.blocks c.ctx.blockCount) := by
    intro i hi
    obtain ⟨hi, htype⟩ := List.mem_filter.mp hi
    obtain ⟨hge, hlt⟩ := List.mem_range'_1.mp hi
    have hnew : i < inner.ctx.instCount := by
      rw [hemitted.instCount]
      exact hlt
    have hlinked : i ∈ inner.ctx.blocks (inner.ctx.insts i).parent :=
      hbuilds.linked hheap.block_new hge hnew
    have hparent : (inner.ctx.insts i).parent = c.ctx.blockCount := by
      have hcount := created_blockCount hheap h
      have hhi : (inner.ctx.insts i).parent < inner.ctx.blockCount := by
        by_contra hout
        rw [hheap'.empty _ (Nat.le_of_not_lt hout)] at hlinked
        cases hlinked
      rcases hbuilds.mem_cases hlinked with hold | ⟨-, hahead, -⟩
      · exact absurd (hheap.block_new.allocated _ i hold) (Nat.not_lt_of_le hge)
      · rcases hahead with hahead | hahead
        · exact hahead
        · have hlo : c.ctx.blockCount + 1 ≤ (inner.ctx.insts i).parent := hahead
          omega
    exact mem_loadAssigns.mpr ⟨hparent ▸ hlinked, htype⟩
  have hnodup := List.Nodup.filter (fun i => (inner.ctx.insts i).type.isLoadAssign)
    (List.nodup_range' (s := c.ctx.instCount)
      (n := (body.code (fun _ => none) [[]] c.regCount).length))
  refine le_trans ?_ (hnodup.subperm hsub).length_le
  rw [← List.countP_eq_length_filter]
  conv_lhs => rw [← hemitted.types, List.countP_map]
  exact le_rfl

end Fits

/-- **A block with too many loads and assigns.**  The function is well scoped and its analyses are
right, and no conversion of it stays within the buffers. -/
theorem createFunction_not_converts : manyCopies.WellScoped [fun _ => none] 0 ∧
    ∃ creator', irCreatorCreateFunction (irCreatorInit irContextInit)
      (functionAst [] .KW_VOID manyCopies) = some (creator', 0) ∧
    ∃ doms, (∃ fuel, dominatorsCompute creator'.ctx fuel 0 = some doms) ∧
      CorrectDoms creator'.ctx 0 doms ∧
    ∃ df, (∃ fuel, domfrontiersCompute creator'.ctx doms fuel = some df) ∧
      CorrectFrontiers creator'.ctx 0 df ∧
    ¬ ∃ bound, ∀ fuel, bound ≤ fuel →
      ∃ ir', ssaConvertStored doms df fuel creator'.ctx 0 = some ir' := by
  obtain ⟨hscoped, hlive, hone, hcount⟩ : manyCopies.WellScoped [fun _ => none] 0 ∧
      manyCopies.liveBlocks ≤ 249 ∧ manyCopies.blockCount = 0 ∧
      (manyCopies.code (fun _ => none) [[]] 0).countP InstType.isLoadAssign = 251 := by
    decide +kernel
  have hinfo : (irCreatorInit irContextInit).blockInfo = [] := rfl
  obtain ⟨inner, doms, df, ir', hinner, h⟩ := exists_functionConverted heapClosed_irContextInit
    hinfo [] .KW_VOID hscoped hlive
    (show 8 * (0 + 1 + manyCopies.blockCount) < 2 ^ 64 by rw [hone]; decide)
  have hmany := created_singleBlock heapClosed_irContextInit hinner hinfo hone
  obtain ⟨creator', hcreate, hctx⟩ := h.created
  rw [← hctx] at h hmany
  refine ⟨hscoped, creator', hcreate, doms, h.computed, h.correctDoms, df, h.climbed,
    h.correctFrontiers, ?_⟩
  rintro ⟨bound, hstored⟩
  obtain ⟨hheap, hform⟩ := createFunction_form heapClosed_irContextInit hcreate
  obtain ⟨ir'', hir''⟩ := hstored (max bound 126) (le_max_left _ _)
  have hfits := (hform.stored_iff hheap h.correctDoms h.correctFrontiers
    (ssaConvert_of_stored hir'' (le_max_right _ _) le_rfl)).mp hir''
  have hle := hfits.loadAssigns 0 .root
  have hblock : (creator'.ctx.mapRegs reg32).blocks 0 = creator'.ctx.blocks 0 := rfl
  rw [hblock, loadAssigns_mapRegs] at hle
  have hcontra : 251 ≤ 250 := hcount ▸ hmany.trans hle
  omega

/-! ## The chain -/

/-- `convertFunction` with the conversion within its buffers. -/
def convertFunctionStored (creator : IrCreator) (f : AstNode) (fuel : ℕ) : Option (Ir × ℕ) := do
  let (creator, entry) ← irCreatorCreateFunction creator f
  let doms ← dominatorsCompute creator.ctx fuel entry
  let df ← domfrontiersCompute creator.ctx doms fuel
  let ir ← ssaConvertStored doms df fuel creator.ctx entry
  return (ir, entry)

/-- **The chain stays within its buffers** if and only if the created function fits those of the
conversion. -/
theorem FunctionConverted.stored_iff {creator : IrCreator} {f : AstNode} {ir ir' : Ir} {entry : ℕ}
    {doms : Dominators} {df : DomFrontiers} (h : FunctionConverted creator f ir entry doms df ir')
    (hheap : HeapOk ir) (hform : SsaFunction ir entry) :
    (∃ bound, ∀ fuel, bound ≤ fuel → convertFunctionStored creator f fuel = some (ir', entry)) ↔
      ConversionFits ir entry doms df := by
  obtain ⟨creator', hcreate, rfl⟩ := h.created
  obtain ⟨k, hdoms⟩ := h.computed
  obtain ⟨k', hdf⟩ := h.climbed
  obtain ⟨k'', hrun⟩ := h.renamed
  have hiff : ∀ fuel, k'' ≤ fuel → (ssaConvertStored doms df fuel creator'.ctx entry = some ir' ↔
      ConversionFits creator'.ctx entry doms df) := fun fuel hfuel =>
    ssaConvertStored_iff hheap h.correctDoms hform h.correctFrontiers.reachable
      (ssaConvert_mono hfuel hrun)
  -- with so many steps the chain is its last step
  have hchain : ∀ fuel, k ≤ fuel → k' ≤ fuel → convertFunctionStored creator f fuel =
      (ssaConvertStored doms df fuel creator'.ctx entry).map fun ir => (ir, entry) := by
    intro fuel hk hk'
    unfold convertFunctionStored
    rw [hcreate, Option.bind_eq_bind, Option.bind_some]
    dsimp only
    rw [dominatorsCompute_mono hk hdoms, Option.bind_eq_bind, Option.bind_some,
      domfrontiersCompute_mono hk' hdf, Option.bind_eq_bind, Option.bind_some]
    exact (Option.map_eq_bind).symm
  constructor
  · rintro ⟨bound, hall⟩
    have hstored := hall (bound + k + k' + k'') (by omega)
    rw [hchain _ (by omega) (by omega)] at hstored
    obtain ⟨ir, hir, heq⟩ := Option.map_eq_some_iff.mp hstored
    obtain ⟨rfl, -⟩ := Prod.mk.inj heq
    exact (hiff _ (by omega)).mp hir
  · intro hfits
    refine ⟨k + k' + k'', fun fuel hfuel => ?_⟩
    rw [hchain _ (by omega) (by omega), (hiff _ (by omega)).mpr hfits]
    rfl

/-- **From a syntax tree to SSA form.**  For each function with well-scoped statements, whose
registers fit in 32 bits and of which at most 249 blocks besides the entry can be reached, the
chain ends with correct dominators and frontiers.  It stays within its buffers if and only if the
created function fits those of the conversion, as each one does with at most 124 blocks besides the
entry and few loads and assigns; and along every path the converted function computes what the
created one computes, if the first variable has the phis that it needs. -/
theorem convertFunction_preserves {creator : IrCreator} (hheap : HeapClosed creator.ctx)
    (hinfo : creator.blockInfo = []) (name : Range) (returnType : TokenType) {body : Statements}
    (hscoped : body.WellScoped [fun _ => none] creator.regCount)
    (hregs : creator.regCount + body.declarations ≤ 2 ^ 32) (hblocks : body.liveBlocks ≤ 249)
    (hmemory : 8 * (creator.ctx.blockCount + 1 + body.blockCount) < 2 ^ 64) :
    ∃ ir entry doms df ir',
      FunctionConverted creator (functionAst name returnType body) ir entry doms df ir' ∧
      ((∃ bound, ∀ fuel, bound ≤ fuel →
          convertFunctionStored creator (functionAst name returnType body) fuel =
            some (ir', entry)) ↔ ConversionFits ir entry doms df) ∧
      (body.liveBlocks ≤ 124 →
        (body.code (fun _ => none) [[]] creator.regCount).countP InstType.isLoadAssign +
          body.liveBlocks ≤ 249 → ConversionFits ir entry doms df) ∧
      (FirstPhisSuffice ir entry doms →
        ∀ (V : Type) (sem : ValueSemantics V), SameMeaning sem ir ir' entry) := by
  obtain ⟨inner, doms, df, ir', hinner, h⟩ :=
    exists_functionConverted hheap hinfo name returnType hscoped hblocks hmemory
  have hheap' := (created_heap hheap hinner).toHeapOk
  have hform := created_ssaFunction hheap hinner hinfo hregs
  refine ⟨_, _, doms, df, ir', h, h.stored_iff hheap' hform,
    created_conversionFits hheap hinner hinfo h.correctDoms h.correctFrontiers,
    fun hfirst V sem => ?_⟩
  obtain ⟨fuel, hrun⟩ := h.renamed
  obtain ⟨_, _, _, _, _, _, _, hconverted, hrenamed, hsuffice⟩ :=
    exists_filling hheap' h.correctDoms hform (createdForm hheap hinner).phi h.correctFrontiers hrun
  exact hconverted.sameMeaning hrenamed (hsuffice hfirst)
    (created_loadsDominated hheap hinner hinfo hscoped).assigned sem

/-- **The SSA form executes the source.**  For a function as in `convertFunction_preserves` whose
blocks are well formed, the code created behaves as the reference interpretation of the syntax
tree.  The chain stays within its buffers if and only if the created function fits them; and if
the first variable has the phis that it needs, the execution of the SSA form goes through the
blocks of that of this code, with the same operands, and it ends exactly if the interpretation
of the syntax tree does. -/
theorem convertFunction_executes {creator : IrCreator} (hheap : HeapClosed creator.ctx)
    (hinfo : creator.blockInfo = []) (name : Range) (returnType : TokenType) {body : Statements}
    (hscoped : body.WellScoped [fun _ => none] creator.regCount)
    (hregs : creator.regCount + body.declarations ≤ 2 ^ 32) (hblocks : body.liveBlocks ≤ 249)
    (hmemory : 8 * (creator.ctx.blockCount + 1 + body.blockCount) < 2 ^ 64)
    (hend : body.ending ≠ .broken) :
    ∃ ir entry doms df ir',
      FunctionConverted creator (functionAst name returnType body) ir entry doms df ir' ∧
      ((∃ bound, ∀ fuel, bound ≤ fuel →
          convertFunctionStored creator (functionAst name returnType body) fuel =
            some (ir', entry)) ↔ ConversionFits ir entry doms df) ∧
      ∀ (V : Type) (sem : ValueSemantics V) (results vars : ℕ → V),
        SameBehaviour sem ir entry body creator.regCount results vars ∧
        (∀ w b, Executes sem ir entry w b → ∃ m d, IrSteps sem ir (irStart entry results vars) m d ∧
          d.block = b ∧ d.pos = 0 ∧ Agrees (runPath sem ir w) d) ∧
        (FirstPhisSuffice ir entry doms → SameExecution sem ir ir' entry ∧
          ((∃ w b, Executes sem ir' entry w b ∧ EndsBehind sem ir' w b) ↔
            ∃ fuel, (body.interpret sem creator.regCount vars fuel).1 ≠ .cut)) := by
  obtain ⟨inner, doms, df, ir', hinner, h⟩ :=
    exists_functionConverted hheap hinfo name returnType hscoped hblocks hmemory
  exact ⟨_, _, doms, df, ir', h, h.stored_iff (created_heap hheap hinner).toHeapOk
    (created_ssaFunction hheap hinner hinfo hregs),
    h.executesSource hheap hinfo hinner hscoped hregs hend⟩

/-! ### The loop that counts -/

/-- What the chain makes of the loop that counts, within the buffers: its phi suffices. -/
theorem convertFunction_preserves_countLoop : ∃ ir entry doms df ir',
    FunctionConverted (irCreatorInit irContextInit) (functionAst [] .KW_VOID countLoop) ir entry
      doms df ir' ∧
    (∃ bound, ∀ fuel, bound ≤ fuel → convertFunctionStored (irCreatorInit irContextInit)
      (functionAst [] .KW_VOID countLoop) fuel = some (ir', entry)) ∧
    ∀ (V : Type) (sem : ValueSemantics V), SameMeaning sem ir ir' entry := by
  have hinfo : (irCreatorInit irContextInit).blockInfo = [] := rfl
  have hscoped : countLoop.WellScoped [fun _ => none] 0 := by decide
  have hregs : 0 + countLoop.declarations ≤ 2 ^ 32 := by decide
  have hblocks : countLoop.liveBlocks ≤ 249 := by decide
  have hmemory : 8 * (0 + 1 + countLoop.blockCount) < 2 ^ 64 := by decide
  obtain ⟨ir, entry, doms, df, ir', h, hstored, hfits, hsame⟩ := convertFunction_preserves
    heapClosed_irContextInit hinfo [] .KW_VOID hscoped hregs hblocks hmemory
  obtain ⟨creator', hcreate, rfl⟩ := h.created
  exact ⟨_, entry, doms, df, ir', h, hstored.mpr (hfits (by decide) (by decide)),
    hsame (firstPhisSuffice_countLoop doms hcreate)⟩

/-- Its execution, within the buffers. -/
theorem convertFunction_executes_countLoop : ∃ ir entry doms df ir',
    FunctionConverted (irCreatorInit irContextInit) (functionAst [] .KW_VOID countLoop) ir entry
      doms df ir' ∧
    ((∃ bound, ∀ fuel, bound ≤ fuel → convertFunctionStored (irCreatorInit irContextInit)
      (functionAst [] .KW_VOID countLoop) fuel = some (ir', entry)) ↔
        ConversionFits ir entry doms df) ∧
    ∀ (V : Type) (sem : ValueSemantics V) (vars : ℕ → V), SameExecution sem ir ir' entry ∧
      ((∃ w b, Executes sem ir' entry w b ∧ EndsBehind sem ir' w b) ↔
        ∃ fuel, (countLoop.interpret sem 0 vars fuel).1 ≠ .cut) := by
  have hinfo : (irCreatorInit irContextInit).blockInfo = [] := rfl
  have hscoped : countLoop.WellScoped [fun _ => none] 0 := by decide
  have hregs : 0 + countLoop.declarations ≤ 2 ^ 32 := by decide
  have hblocks : countLoop.liveBlocks ≤ 249 := by decide
  have hmemory : 8 * (0 + 1 + countLoop.blockCount) < 2 ^ 64 := by decide
  have hend : countLoop.ending ≠ .broken := by decide
  obtain ⟨ir, entry, doms, df, ir', h, hstored, hexec⟩ := convertFunction_executes
    heapClosed_irContextInit hinfo [] .KW_VOID hscoped hregs hblocks hmemory hend
  obtain ⟨creator', hcreate, rfl⟩ := h.created
  refine ⟨_, entry, doms, df, ir', h, hstored, fun V sem vars => ?_⟩
  exact (hexec V sem vars vars).2.2 (firstPhisSuffice_countLoop doms hcreate)
