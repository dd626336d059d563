/-
# Created functions can be converted

`irCreatorCreateFunction_convertible` : in a function with well-scoped statements every load
is dominated by an assign, and so the conversion ends.  Nothing is assumed of the ids of the
registers, as the conversion knows them up to `2 ^ 32` only (`reg32`).
-/
import MCompiler.IrCreationForm
import MCompiler.IrCreationMeaning
import MCompiler.SsaRegisters

open FlowGraph

/-! ## Other registers -/

section MapRegs

variable {ir : Ir} {entry : ℕ} {f : ℕ → ℕ}

theorem cfgEdge_mapRegs : cfgEdge (ir.mapRegs f) = cfgEdge ir := by
  funext a b
  show (b ∈ blockSuccessors (ir.mapRegs f) a) = (b ∈ blockSuccessors ir a)
  rw [mapRegs_blockSuccessors]

@[simp] theorem mapRegs_type (i : ℕ) :
    ((ir.mapRegs f).insts i).type = (ir.insts i).type.mapRegs f := rfl

@[simp] theorem InstType.mapRegs_hasResult (type : InstType) :
    (type.mapRegs f).hasResult = type.hasResult := by
  cases type <;> rfl

@[simp] theorem InstType.mapRegs_isJump (type : InstType) :
    (type.mapRegs f).isJump = type.isJump := by
  cases type <;> rfl

@[simp] theorem InstType.mapRegs_isLoadAssign (type : InstType) :
    (type.mapRegs f).isLoadAssign = type.isLoadAssign := by
  cases type <;> rfl

theorem InstType.mapRegs_eq_phi {type : InstType} : type.mapRegs f = .phi ↔ type = .phi := by
  cases type <;> simp [InstType.mapRegs]

theorem InstType.mapRegs_eq_loadVar {type : InstType} {a : ℕ} :
    type.mapRegs f = .loadVar a ↔ ∃ b, type = .loadVar b ∧ f b = a := by
  cases type <;> simp [InstType.mapRegs]

theorem InstType.mapRegs_eq_assignVar {type : InstType} {a : ℕ} :
    type.mapRegs f = .assignVar a ↔ ∃ b, type = .assignVar b ∧ f b = a := by
  cases type <;> simp [InstType.mapRegs]

theorem HeapOk.mapRegs (h : HeapOk ir) : HeapOk (ir.mapRegs f) where
  uses := ⟨h.uses.mem, h.uses.nodup⟩
  fresh := h.fresh
  nodup := h.nodup
  parent := h.parent
  allocated := h.allocated
  operand := h.operand

theorem CorrectDoms.mapRegs {doms : Dominators} (h : CorrectDoms ir entry doms) :
    CorrectDoms (ir.mapRegs f) entry doms := by
  obtain ⟨⟨hcount, hmem, hentry, hidom⟩, hnodup, hnumber, hchilds⟩ := h
  rw [← cfgEdge_mapRegs (f := f)] at hmem hidom hchilds
  exact ⟨⟨hcount, hmem, hentry, hidom⟩, hnodup, hnumber, hchilds⟩

theorem CorrectFrontiers.mapRegs {df : DomFrontiers} (h : CorrectFrontiers ir entry df) :
    CorrectFrontiers (ir.mapRegs f) entry df := by
  unfold CorrectFrontiers
  rw [cfgEdge_mapRegs]
  exact h

theorem PhiFree.mapRegs (h : PhiFree ir entry) : PhiFree (ir.mapRegs f) entry := by
  intro b hb i hi htype
  rw [cfgEdge_mapRegs] at hb
  exact h b hb i hi (InstType.mapRegs_eq_phi.mp htype)

theorem LoadsDominated.mapRegs (h : LoadsDominated ir entry) :
    LoadsDominated (ir.mapRegs f) entry := by
  intro b hb pre i post a hblock htype
  rw [cfgEdge_mapRegs] at hb ⊢
  obtain ⟨a, hload, rfl⟩ := InstType.mapRegs_eq_loadVar.mp htype
  rcases h b hb pre i post a hblock hload with ⟨j, hj, hassign⟩ | ⟨x, hx, j, hj, hassign⟩
  · exact .inl ⟨j, hj, InstType.mapRegs_eq_assignVar.mpr ⟨a, hassign, rfl⟩⟩
  · exact .inr ⟨x, hx, j, hj, InstType.mapRegs_eq_assignVar.mpr ⟨a, hassign, rfl⟩⟩

@[simp] theorem loadAssigns_mapRegs (l : List ℕ) :
    loadAssigns (ir.mapRegs f) l = loadAssigns ir l := by
  unfold loadAssigns
  simp only [mapRegs_type, InstType.mapRegs_isLoadAssign]

theorem OperandOk.mapRegs {b i : ℕ} {v : Value} (h : OperandOk ir entry b i v) :
    OperandOk (ir.mapRegs f) entry b i v := by
  cases h with
  | const c => exact .const c
  | block x hjump => exact .block x (by rwa [mapRegs_type, InstType.mapRegs_isJump])
  | inst hresult hdef =>
      refine .inst (by rwa [mapRegs_type, InstType.mapRegs_hasResult]) ?_
      unfold DefinedBefore
      rw [cfgEdge_mapRegs]
      exact hdef

/-- The form of the function with registers of 32 bits. -/
theorem FunctionForm.ssaFunction (h : FunctionForm ir entry) (hf : ∀ a, IntReg (f a)) :
    SsaFunction (ir.mapRegs f) entry where
  reg b _ i _ a ha := by
    rw [mapRegs_type] at ha
    cases htype : (ir.insts i).type with
    | loadVar c | assignVar c =>
        rw [htype] at ha
        obtain rfl := Option.some.inj ha
        exact hf c
    | _ =>
        rw [htype] at ha
        cases ha
  assign b hb i hi a htype := by
    rw [cfgEdge_mapRegs] at hb
    obtain ⟨c, hassign, -⟩ := InstType.mapRegs_eq_assignVar.mp htype
    exact h.assign b hb i hi c hassign
  jump b hb l i hblock hi := by
    rw [cfgEdge_mapRegs] at hb
    rw [mapRegs_type, InstType.mapRegs_isLoadAssign] at hi
    exact h.jump b hb l i hblock hi
  operand b hb i hi htype k v hv := by
    rw [cfgEdge_mapRegs] at hb
    rw [mapRegs_type] at htype
    exact (h.operand b hb i hi (mt InstType.mapRegs_eq_phi.mpr htype) k v hv).mapRegs

end MapRegs

/-- The id of a register in 32 bits. -/
def reg32 (a : ℕ) : ℕ := a % 2 ^ 32

theorem intReg_reg32 (a : ℕ) : IntReg (reg32 a) := Nat.mod_lt a (by decide)

/-- The key of a register is that of its id in 32 bits. -/
theorem toInt_reg32 (a : ℕ) : toInt (reg32 a : ℤ) = toInt (a : ℤ) := by
  unfold reg32 toInt
  rw [Int.natCast_mod]
  exact Int.emod_bmod a (2 ^ 32)

/-- The conversion runs on registers of 32 bits as it does on the registers themselves. -/
theorem ssaConvert_reg32 {ir ir' : Ir} {entry fuel : ℕ} {doms : Dominators} {df : DomFrontiers}
    (hrun : ssaConvert doms df fuel ir entry = some ir') :
    ssaConvert doms df fuel (ir.mapRegs reg32) entry = some (ir'.mapRegs reg32) := by
  rw [ssaConvert_mapRegs ir toInt_reg32, hrun]
  rfl

/-- A function in load/assign form whose loads are dominated by assigns is converted,
whatever its registers are. -/
theorem FunctionForm.converted {ir : Ir} {entry : ℕ} {doms : Dominators} {df : DomFrontiers}
    (h : FunctionForm ir entry) (hheap : HeapOk ir) (hload : LoadsDominated ir entry)
    (hdoms : CorrectDoms ir entry doms) (hdf : CorrectFrontiers ir entry df) :
    ∃ bound, ∀ fuel, bound ≤ fuel → ∃ ir', ssaConvert doms df fuel ir entry = some ir' := by
  obtain ⟨bound, hbound⟩ := ssaConvert_frame (ir.mapRegs reg32) entry doms df hheap.mapRegs
    hdoms.mapRegs (h.ssaFunction intReg_reg32) h.phi.mapRegs hload.mapRegs hdf.mapRegs.reachable
  refine ⟨bound, fun fuel hfuel => ?_⟩
  obtain ⟨-, -, -, ir', -, -, hconvert, -⟩ := hbound fuel hfuel
  rw [ssaConvert_mapRegs ir toInt_reg32] at hconvert
  obtain ⟨result, hresult, -⟩ := Option.map_eq_some_iff.mp hconvert
  exact ⟨result, hresult⟩

/-! ## Created functions -/

/-- A created function has the statements of its body behind a new entry. -/
theorem exists_created {creator creator' : IrCreator} {f : AstNode} {entry : ℕ}
    (hcreate : irCreatorCreateFunction creator f = some (creator', entry)) :
    ∃ (body : Statements) (inner : IrCreator),
      createStatements creator.enterBlock body.toAst = some inner ∧ creator'.ctx = inner.ctx ∧
        entry = creator.ctx.blockCount := by
  obtain ⟨name, returnType, l, others, inner, rfl, hinner, hr⟩ := createFunction_eq_some.mp hcreate
  obtain ⟨body, rfl⟩ := exists_statements hinner
  cases hr
  exact ⟨body, inner, hinner, rfl, rfl⟩

theorem createFunction_form {creator creator' : IrCreator} {f : AstNode} {entry : ℕ}
    (hheap : HeapClosed creator.ctx)
    (hcreate : irCreatorCreateFunction creator f = some (creator', entry)) :
    HeapOk creator'.ctx ∧ FunctionForm creator'.ctx entry := by
  obtain ⟨body, inner, hinner, hctx, rfl⟩ := exists_created hcreate
  rw [hctx]
  exact ⟨(created_heap hheap hinner).toHeapOk, createdForm hheap hinner⟩

/-- **A function with well-scoped statements can be converted.**  It is created, its loads
are dominated by assigns, and the conversion ends without a missing value. -/
theorem irCreatorCreateFunction_convertible {creator : IrCreator} (hheap : HeapClosed creator.ctx)
    (hinfo : creator.blockInfo = []) (name : Range) (returnType : TokenType) {body : Statements}
    (hscoped : body.WellScoped [fun _ => none] creator.regCount) :
    ∃ creator' entry,
      irCreatorCreateFunction creator (functionAst name returnType body) =
        some (creator', entry) ∧
      LoadsDominated creator'.ctx entry ∧
      ∀ doms df, CorrectDoms creator'.ctx entry doms → CorrectFrontiers creator'.ctx entry df →
        ∃ bound, ∀ fuel, bound ≤ fuel →
          ∃ ir', ssaConvert doms df fuel creator'.ctx entry = some ir' := by
  obtain ⟨inner, hinner⟩ := createBody_succeeds hinfo hscoped
  have hload := created_loadsDominated hheap hinner hinfo hscoped
  refine ⟨creator.leaveBlock inner, creator.ctx.blockCount, ?_, hload, fun doms df hdoms hdf => ?_⟩
  · apply createFunction_eq_some.mpr
    exact ⟨name, returnType, body.toAst, [], inner, rfl, hinner, rfl⟩
  · exact (createdForm hheap hinner).converted (created_heap hheap hinner).toHeapOk hload hdoms hdf
