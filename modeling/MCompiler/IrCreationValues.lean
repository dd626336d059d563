/-
# The code of expressions

`createValue_correct` : the code of an expression is appended to the current block, its
operands left before right, and nothing else is touched.  Whatever the registers hold,
executing it gives the value of the expression.
-/
import MCompiler.IrCreationMeaning
import MCompiler.IrUses

/-! ## The appended instructions -/

/-- Every variable of the expression is in scope, as an `int64`. -/
def Expression.Int64In (blockInfo : List (Range → Option CreatorVariable)) : Expression → Prop
  | .number _ => True
  | .var varName => ∃ var, findReg blockInfo varName = some var ∧ var.dataType = .KW_INT64
  | .binary _ left right => left.Int64In blockInfo ∧ right.Int64In blockInfo

/-- The instructions of an expression in the order of the evaluation: the left operand, the
right one, and the operator.  Numbers are constants, and names stand for registers. -/
def Expression.code (rIds : Range → Option ℕ) : Expression → List InstType
  | .number _ => []
  | .var varName => [.loadVar ((rIds varName).getD 0)]
  | .binary op left right => left.code rIds ++ right.code rIds ++ [.binary op]

/-- `ir'` has, after the instructions of `ir`, new ones of these types in this order. -/
structure Emitted (ir ir' : Ir) (types : List InstType) : Prop where
  instCount : ir'.instCount = ir.instCount + types.length
  types : (List.range' ir.instCount types.length).map (fun i => (ir'.insts i).type) = types
  insts : ∀ i < ir.instCount, (ir'.insts i).type = (ir.insts i).type

theorem Emitted.of_insts {ir ir' : Ir} (hcount : ir'.instCount = ir.instCount)
    (hinsts : ir'.insts = ir.insts) : Emitted ir ir' [] :=
  ⟨hcount, rfl, fun i _ => by rw [hinsts]⟩

theorem Emitted.one (ir : Ir) (b : ℕ) (type : InstType) (dataType : DataType)
    (uses : List (Option Value)) : Emitted ir (ir.emit b type dataType uses) [type] where
  instCount := rfl
  types := by
    show [((ir.emit b type dataType uses).insts ir.instCount).type] = [type]
    rw [emit_insts_self]
  insts i hi := by rw [emit_insts_of_ne _ _ _ _ _ (Nat.ne_of_lt hi)]

theorem Emitted.trans {ir ir₁ ir₂ : Ir} {types types' : List InstType} (h : Emitted ir ir₁ types)
    (h' : Emitted ir₁ ir₂ types') : Emitted ir ir₂ (types ++ types') where
  instCount := by rw [h'.instCount, h.instCount, List.length_append, Nat.add_assoc]
  types := by
    have hold : (List.range' ir.instCount types.length).map (fun i => (ir₂.insts i).type) =
        types := by
      refine Eq.trans ?_ h.types
      apply List.map_congr_left
      intro i hi
      exact h'.insts i (h.instCount ▸ (List.mem_range'_1.mp hi).2)
    rw [List.length_append, ← List.range'_append_1, List.map_append, hold, ← h.instCount, h'.types]
  insts i hi := (h'.insts i (h.instCount ▸ Nat.lt_add_right _ hi)).trans (h.insts i hi)

/-- Creator `c'` is `c` with the code of the expression at the end of the current block, and
with the new value `v`. -/
structure ValueAppended (c : IrCreator) (e : Expression) (c' : IrCreator) (v : Value) : Prop where
  regCount : c'.regCount = c.regCount
  block : c'.block = c.block
  blockInfo : c'.blockInfo = c.blockInfo
  blockCount : c'.ctx.blockCount = c.ctx.blockCount
  constCount : c.ctx.constCount ≤ c'.ctx.constCount
  emitted : Emitted c.ctx c'.ctx (e.code c.scopes.lookup)
  appended : c'.ctx.blocks c.block = c.ctx.blocks c.block ++
    List.range' c.ctx.instCount (e.code c.scopes.lookup).length
  others : ∀ b, b ≠ c.block → c'.ctx.blocks b = c.ctx.blocks b
  insts : ∀ i < c.ctx.instCount, c'.ctx.insts i = c.ctx.insts i
  consts : ∀ k < c.ctx.constCount, c'.ctx.consts k = c.ctx.consts k
  uses : ∀ w, c.ctx.HasValue w → c'.ctx.uses w = c.ctx.uses w
  fresh : ¬ c.ctx.HasValue v
  value : c'.ctx.HasValue v

section Append

variable {c c₁ c₂ c' : IrCreator} {e left right : Expression} {l v : Value}

theorem ValueAppended.instCount_le (h : ValueAppended c e c₁ v) :
    c.ctx.instCount ≤ c₁.ctx.instCount := by
  rw [h.emitted.instCount]
  exact Nat.le_add_right _ _

/-- What has been created stays so. -/
theorem ValueAppended.hasValue (h : ValueAppended c e c₁ v) {w : Value} (hw : c.ctx.HasValue w) :
    c₁.ctx.HasValue w := by
  cases w with
  | inst i => exact Nat.lt_of_lt_of_le hw h.instCount_le
  | const k => exact Nat.lt_of_lt_of_le hw h.constCount
  | block b => exact Nat.lt_of_lt_of_eq hw h.blockCount.symm

theorem ValueAppended.number (c : IrCreator) (num : Int64) :
    ValueAppended c (.number num) { c with ctx := (irConstantValue c.ctx num).1 }
      (.const c.ctx.constCount) where
  regCount := rfl
  block := rfl
  blockInfo := rfl
  blockCount := rfl
  constCount := Nat.le_succ _
  emitted := .of_insts rfl rfl
  appended := (List.append_nil _).symm
  others _ _ := rfl
  insts _ _ := rfl
  consts k hk := Function.update_of_ne (Nat.ne_of_lt hk) _ _
  uses w hw := by
    apply Function.update_of_ne
    rintro rfl
    exact Nat.lt_irrefl _ hw
  fresh := Nat.lt_irrefl _
  value := Nat.lt_succ_self _

theorem ValueAppended.var {varName : Range} {var : CreatorVariable}
    (hvar : findReg c.blockInfo varName = some var) :
    ValueAppended c (.var varName) (c.emit (.loadVar var.rId) (convertDataType var.dataType) [])
      (.inst c.ctx.instCount) where
  regCount := rfl
  block := rfl
  blockInfo := rfl
  blockCount := rfl
  constCount := Nat.le_refl _
  emitted := by
    show Emitted c.ctx _ [.loadVar ((c.scopes.lookup varName).getD 0)]
    rw [lookup_scopes, hvar]
    exact .one _ _ _ _ _
  appended := emit_blocks_self c.ctx c.block _ _ _
  others b hb := emit_blocks_of_ne c.ctx c.block _ _ _ hb
  insts i hi := emit_insts_of_ne c.ctx c.block _ _ _ (Nat.ne_of_lt hi)
  consts _ _ := rfl
  uses w hw := by
    show (if w = .inst c.ctx.instCount then [] else c.ctx.uses w) ++ [] = c.ctx.uses w
    rw [if_neg, List.append_nil]
    rintro rfl
    exact Nat.lt_irrefl _ hw
  fresh := Nat.lt_irrefl _
  value := Nat.lt_succ_self _

/-- An operator after the code of its operands. -/
theorem ValueAppended.binary (op : BinaryOps) (hl : ValueAppended c left c₁ l)
    (hv : ValueAppended c₁ right c₂ v) : ValueAppended c (.binary op left right)
      (c₂.emit (.binary op) (c₂.ctx.dataType l) [some l, some v]) (.inst c₂.ctx.instCount) := by
  have hblock : c₂.block = c.block := hv.block.trans hl.block
  have hle := hl.instCount_le
  have hle' := hv.instCount_le
  have hright : Emitted c₁.ctx c₂.ctx (right.code c.scopes.lookup) :=
    scopes_of_blockInfo hl.blockInfo ▸ hv.emitted
  have hemitted : Emitted c.ctx (c₂.ctx.emit c₂.block (.binary op) (c₂.ctx.dataType l)
      [some l, some v]) (left.code c.scopes.lookup ++ right.code c.scopes.lookup ++ [.binary op]) :=
    (hl.emitted.trans hright).trans (.one _ _ _ _ _)
  have hblocks : c₂.ctx.blocks c.block = c.ctx.blocks c.block ++
      List.range' c.ctx.instCount
        (left.code c.scopes.lookup ++ right.code c.scopes.lookup).length := by
    have happended := hv.appended
    rw [scopes_of_blockInfo hl.blockInfo, hl.block, hl.appended, hl.emitted.instCount,
      List.append_assoc, List.range'_append_1] at happended
    rw [happended, List.length_append]
  refine ⟨hv.regCount.trans hl.regCount, hblock, hv.blockInfo.trans hl.blockInfo,
    hv.blockCount.trans hl.blockCount, Nat.le_trans hl.constCount hv.constCount, hemitted, ?_,
    fun b hb => ?_, fun i hi => ?_, fun k hk => ?_, fun w hw => ?_,
    Nat.not_lt_of_le (Nat.le_trans hle hle'), Nat.lt_succ_self _⟩
  · have hcount : c₂.ctx.instCount = c.ctx.instCount +
        (left.code c.scopes.lookup ++ right.code c.scopes.lookup).length :=
      (hl.emitted.trans hright).instCount
    show (c₂.ctx.emit c₂.block _ _ _).blocks c.block = _ ++ List.range' _ (_ ++ [_]).length
    rw [← hblock, emit_blocks_self, hblock, hblocks, List.append_assoc, hcount]
    generalize left.code c.scopes.lookup ++ right.code c.scopes.lookup = types
    rw [List.length_append, List.length_singleton, List.range'_concat, Nat.one_mul]
  · show (c₂.ctx.emit c₂.block _ _ _).blocks b = _
    rw [emit_blocks_of_ne _ _ _ _ _ (hblock ▸ hb), hv.others b (hl.block ▸ hb), hl.others b hb]
  · show (c₂.ctx.emit c₂.block _ _ _).insts i = _
    have hi₁ := Nat.lt_of_lt_of_le hi hle
    rw [emit_insts_of_ne _ _ _ _ _ (Nat.ne_of_lt (Nat.lt_of_lt_of_le hi₁ hle')), hv.insts i hi₁,
      hl.insts i hi]
  · exact (hv.consts k (Nat.lt_of_lt_of_le hk hl.constCount)).trans (hl.consts k hk)
  · -- the operands are new values
    have hw₁ := hl.hasValue hw
    have hnew : w ≠ .inst c₂.ctx.instCount := by
      rintro rfl
      exact absurd hw (Nat.not_lt_of_le (Nat.le_trans hle hle'))
    have hnl : l ≠ w := by
      rintro rfl
      exact hl.fresh hw
    have hnv : v ≠ w := by
      rintro rfl
      exact hv.fresh hw₁
    show (c₂.ctx.emit c₂.block _ _ _).uses w = _
    rw [emit_uses, if_neg hnew, hv.uses w hw₁, hl.uses w hw]
    simp [usesOf, hnl, hnv]

/-- `create_value` appends the code. -/
theorem createValue_appended (h : createValue c e.toAst = some (c', v)) :
    ValueAppended c e c' v := by
  induction e generalizing c c' v with
  | number num =>
      rw [Expression.toAst, createValue_number] at h
      cases h
      exact .number c num
  | var varName =>
      obtain ⟨var, hvar, hr⟩ := createValue_variable.mp h
      cases hr
      exact .var hvar
  | binary op left right ihl ihr =>
      obtain ⟨c₁, l, c₂, x, hl, hx, -, hr⟩ := createValue_binary.mp h
      cases hr
      exact (ihl hl).binary op (ihr hx)

/-- A value that has been created keeps its data type. -/
theorem ValueAppended.dataType (h : ValueAppended c e c₁ v) {w : Value} (hw : c.ctx.HasValue w) :
    c₁.ctx.dataType w = c.ctx.dataType w := by
  cases w with
  | inst i => exact congrArg Instruction.dataType (h.insts i hw)
  | const k => rfl
  | block b => rfl

/-- With `int64` variables no assertion fails. -/
theorem createValue_int64 (h : e.Int64In c.blockInfo) :
    ∃ c' v, createValue c e.toAst = some (c', v) ∧ c'.ctx.dataType v = .int64 := by
  induction e generalizing c with
  | number num => exact ⟨_, _, createValue_number c num, rfl⟩
  | var varName =>
      obtain ⟨var, hvar, htype⟩ := h
      refine ⟨_, _, createValue_variable.mpr ⟨var, hvar, rfl⟩, ?_⟩
      show ((c.ctx.emit _ _ _ _).insts c.ctx.instCount).dataType = .int64
      rw [emit_insts_self, htype]
      rfl
  | binary op left right ihl ihr =>
      obtain ⟨c₁, l, hl, hltype⟩ := ihl h.1
      have hleft := createValue_appended hl
      obtain ⟨c₂, v, hv, hvtype⟩ := ihr (hleft.blockInfo ▸ h.2)
      have hltype₂ : c₂.ctx.dataType l = .int64 :=
        ((createValue_appended hv).dataType hleft.value).trans hltype
      refine ⟨_, _, createValue_binary.mpr
        ⟨c₁, l, c₂, v, hl, hv, hltype₂.trans hvtype.symm, rfl⟩, ?_⟩
      show ((c₂.ctx.emit _ _ _ _).insts c₂.ctx.instCount).dataType = .int64
      rw [emit_insts_self, hltype₂]

end Append

/-! ## The value -/

/-- **Expressions compile correctly.**  Their code is appended to the current block, which
is all that changes; from every state it leads to its end, with the value of the expression
and the registers as they were. -/
theorem createValue_correct {V : Type} (sem : ValueSemantics V) (c : IrCreator) (e : Expression)
    (hb : c.block < c.ctx.blockCount) (h : e.Int64In c.blockInfo) :
    ∃ c' v, createValue c e.toAst = some (c', v) ∧ ValueAppended c e c' v ∧
      ∀ (results : ℕ → V) (st : Execution V), ∃ m results',
        IrSteps sem c'.ctx ⟨c.block, c.pos, results, st⟩ m
          ⟨c.block, c.pos + (e.code c.scopes.lookup).length, results', st⟩ ∧
        irOperand sem c'.ctx results' v = some (e.eval sem c.scopes st.vars) := by
  obtain ⟨c', v, hcreate, -⟩ := createValue_int64 h
  have happended := createValue_appended hcreate
  refine ⟨c', v, hcreate, happended, fun results st => ?_⟩
  have hcode := (createValue_created hb hcreate).code (.refl (fun _ => False) _)
  have hpos : c'.pos = c.pos + (e.code c.scopes.lookup).length := by
    unfold IrCreator.pos
    rw [happended.block, happended.appended, List.length_append, List.length_range']
  obtain ⟨-, -, hsteps⟩ := hcode.steps sem st
  obtain ⟨m, results', hrun, hvalue, -⟩ := hsteps results
  rw [hpos] at hrun
  exact ⟨m, results', hrun, hvalue⟩

/-- `1 + 2` in the first block. -/
theorem createValue_correct_add : ∃ c' v,
    createValue ⟨0, 0, [], (blockNew irContextInit).1⟩
      (Expression.binary .add (.number 1) (.number 2)).toAst = some (c', v) ∧
    ValueAppended ⟨0, 0, [], (blockNew irContextInit).1⟩
      (.binary .add (.number 1) (.number 2)) c' v ∧
    ∀ (results : ℕ → Int64) (st : Execution Int64), ∃ m results',
      IrSteps int64Semantics c'.ctx ⟨0, 0, results, st⟩ m ⟨0, 0 + 1, results', st⟩ ∧
      irOperand int64Semantics c'.ctx results' v = some
        ((Expression.binary .add (.number 1) (.number 2)).eval int64Semantics [] st.vars) :=
  createValue_correct int64Semantics ⟨0, 0, [], (blockNew irContextInit).1⟩
    (.binary .add (.number 1) (.number 2)) Nat.zero_lt_one ⟨trivial, trivial⟩
