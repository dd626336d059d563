/-
# Names resolve lexically

A name stands for the declaration that stands before it in the innermost enclosing block
that has one (`resolve`).  `createBlock_resolves` : the instructions that a block emits carry
the numbers of the declarations that their names stand for, each declaration has a number
of its own, and afterwards the scopes and the current block are those from before.
-/
import MCompiler.IrCreationValues

/-! ## Lexical scoping -/

/-- The declarations of a block up to some place, the last one first, with their numbers. -/
abbrev Declarations := List (Range × ℕ)

/-- The declaration that a name stands for: that of the innermost block that has one, or one
outside of all blocks. -/
def resolve (outer : Range → Option ℕ) (blocks : List Declarations) (varName : Range) : Option ℕ :=
  (blocks.findSome? fun decls => decls.lookup varName).or (outer varName)

/-- A declaration in the innermost block. -/
def declareIn : List Declarations → Range → ℕ → List Declarations
  | [], _, _ => []
  | decls :: blocks, varName, n => ((varName, n) :: decls) :: blocks

/-- Every variable of an expression stands for a declaration. -/
def Expression.Resolved (rIds : Range → Option ℕ) : Expression → Prop
  | .number _ => True
  | .var varName => (rIds varName).isSome
  | .binary _ left right => left.Resolved rIds ∧ right.Resolved rIds

section Lexical

variable (outer : Range → Option ℕ)

/-- Every variable stands for an earlier declaration, which may be the one whose initialiser
it is in, and no block declares a name twice.  `n` is the number of the next declaration. -/
def Statements.Lexical : List Declarations → ℕ → Statements → Prop
  | _, _, .done => True
  | blocks, n, .assign varName value rest =>
      (resolve outer blocks varName).isSome ∧ value.Resolved (resolve outer blocks) ∧
        rest.Lexical blocks n
  | blocks, n, .declare _ _ varName value rest =>
      (blocks.head?.bind fun decls => decls.lookup varName) = none ∧
        value.Resolved (resolve outer (declareIn blocks varName n)) ∧
        rest.Lexical (declareIn blocks varName n) (n + 1)
  | blocks, n, .ifThen condition body rest | blocks, n, .whileDo condition body rest =>
      condition.Resolved (resolve outer blocks) ∧ body.Lexical ([] :: blocks) n ∧
        rest.Lexical blocks (n + body.declarations)
  | blocks, n, .ret rest => rest.Lexical blocks n
  | blocks, n, .other _ _ rest => rest.Lexical blocks n

/-- The instructions of statements in the order of their creation, with the numbers of the
declarations that the names stand for.  The condition of a `while` is created after its
body. -/
def Statements.code : List Declarations → ℕ → Statements → List InstType
  | _, _, .done => []
  | blocks, n, .assign varName value rest =>
      value.code (resolve outer blocks) ++ [.assignVar ((resolve outer blocks varName).getD 0)] ++
        rest.code blocks n
  | blocks, n, .declare _ _ varName value rest =>
      value.code (resolve outer (declareIn blocks varName n)) ++ [.assignVar n] ++
        rest.code (declareIn blocks varName n) (n + 1)
  | blocks, n, .ifThen condition body rest =>
      condition.code (resolve outer blocks) ++ body.code ([] :: blocks) n ++ [.jumpCond, .jump] ++
        rest.code blocks (n + body.declarations)
  | blocks, n, .whileDo condition body rest =>
      [.jump] ++ body.code ([] :: blocks) n ++ [.jump] ++ condition.code (resolve outer blocks) ++
        [.jumpCond] ++ rest.code blocks (n + body.declarations)
  | blocks, n, .ret rest => [.ret] ++ rest.code blocks n
  | blocks, n, .other _ _ rest => rest.code blocks n

end Lexical

/-- The declarations of statements, in the order of the text, with their numbers. -/
def Statements.numbered : ℕ → Statements → Declarations
  | _, .done => []
  | n, .assign _ _ rest => rest.numbered n
  | n, .declare _ _ varName _ rest => (varName, n) :: rest.numbered (n + 1)
  | n, .ifThen _ body rest | n, .whileDo _ body rest =>
      body.numbered n ++ rest.numbered (n + body.declarations)
  | n, .ret rest => rest.numbered n
  | n, .other _ _ rest => rest.numbered n

/-- All declarations are of `int64`s. -/
def Statements.DeclaresInt64 : Statements → Prop
  | .done => True
  | .assign _ _ rest => rest.DeclaresInt64
  | .declare dataType _ _ _ rest => dataType = .KW_INT64 ∧ rest.DeclaresInt64
  | .ifThen _ body rest | .whileDo _ body rest => body.DeclaresInt64 ∧ rest.DeclaresInt64
  | .ret rest => rest.DeclaresInt64
  | .other _ _ rest => rest.DeclaresInt64

/-- **Each declaration has a number of its own.** -/
theorem numbered_numbers (n : ℕ) (ss : Statements) :
    (ss.numbered n).map Prod.snd = List.range' n ss.declarations := by
  induction ss generalizing n with
  | done => rfl
  | assign varName value rest ih => exact ih n
  | declare dataType op varName value rest ih =>
      show n :: (rest.numbered (n + 1)).map Prod.snd = _
      rw [ih, Statements.declarations, Nat.add_comm 1, List.range'_succ]
  | ifThen condition body rest ihbody ihrest | whileDo condition body rest ihbody ihrest =>
      show (body.numbered n ++ rest.numbered (n + body.declarations)).map Prod.snd = _
      rw [List.map_append, ihbody, ihrest, Statements.declarations, List.range'_append_1]
  | ret rest ih => exact ih n
  | other node hignored rest ih => exact ih n

/-! ## The variable maps -/

section Maps

variable (outerInfo : List (Range → Option CreatorVariable))

/-- The variable maps hold the declarations of the blocks, and those outside. -/
inductive ScopesMatch : List (Range → Option CreatorVariable) → List Declarations → Prop
  | outer : ScopesMatch outerInfo []
  | block {m : Range → Option CreatorVariable} {ms : List (Range → Option CreatorVariable)}
      {decls : Declarations} {blocks : List Declarations} :
      (∀ varName, (m varName).map CreatorVariable.rId = decls.lookup varName) →
      ScopesMatch ms blocks → ScopesMatch (m :: ms) (decls :: blocks)

/-- What names stand for outside. -/
def outerRegs (varName : Range) : Option ℕ :=
  (findReg outerInfo varName).map CreatorVariable.rId

variable {outerInfo} {c c₁ : IrCreator} {blocks : List Declarations}

theorem ScopesMatch.findReg_eq {blockInfo : List (Range → Option CreatorVariable)}
    (h : ScopesMatch outerInfo blockInfo blocks) (varName : Range) :
    (findReg blockInfo varName).map CreatorVariable.rId =
      resolve (outerRegs outerInfo) blocks varName := by
  induction h with
  | outer => rfl
  | @block m ms decls blocks hm _ ih =>
      unfold resolve at ih ⊢
      rw [findReg, List.findSome?_cons, ← hm]
      cases m varName with
      | none => exact ih
      | some var => rfl

/-- Names are looked up lexically. -/
theorem ScopesMatch.lookup_eq (h : ScopesMatch outerInfo c.blockInfo blocks) :
    c.scopes.lookup = resolve (outerRegs outerInfo) blocks := by
  funext varName
  rw [lookup_scopes, h.findReg_eq]

theorem ScopesMatch.enterBlock (h : ScopesMatch outerInfo c.blockInfo blocks) :
    ScopesMatch outerInfo c.enterBlock.blockInfo ([] :: blocks) := .block (fun _ => rfl) h

/-- A declaration goes into the innermost map. -/
theorem ScopesMatch.createReg (h : ScopesMatch outerInfo c.blockInfo blocks) (hne : blocks ≠ [])
    {varName : Range} {dataType : TokenType} (hreg : createReg c varName dataType = some c₁) :
    ScopesMatch outerInfo c₁.blockInfo (declareIn blocks varName c.regCount) := by
  obtain ⟨m, ms, hinfo, -, rfl⟩ := createReg_eq_some.mp hreg
  rw [hinfo] at h
  cases h with
  | outer => exact absurd rfl hne
  | @block _ _ decls blocks hm hms =>
      refine .block (fun name => ?_) hms
      by_cases hname : name = varName
      · subst hname
        rw [Function.update_self, List.lookup_cons, beq_self_eq_true]
        rfl
      · rw [Function.update_of_ne hname, List.lookup_cons, beq_eq_false_iff_ne.mpr hname]
        exact hm name

end Maps

/-! ## The emitted instructions -/

section Emit

variable {outerInfo : List (Range → Option CreatorVariable)} {c c' c₁ : IrCreator}
  {blocks : List Declarations}

theorem createAssignment_emitted {varName : Range} {e : Expression}
    (h : createAssignment c (.variable varName false) e.toAst = some c₁) :
    Emitted c.ctx c₁.ctx
      (e.code c.scopes.lookup ++ [.assignVar ((c.scopes.lookup varName).getD 0)]) := by
  obtain ⟨var, c₀, v, hvar, hv, rfl⟩ := createAssignment_eq_some.mp h
  rw [lookup_scopes c varName, hvar]
  exact (createValue_appended hv).emitted.trans (.one _ _ _ _ _)

theorem emitted_blockNew (ir : Ir) : Emitted ir (blockNew ir).1 [] := .of_insts rfl rfl

/-- **The instructions of statements** carry the numbers of the declarations that their names
stand for. -/
theorem createStatements_emitted {ss : Statements} (hb : c.block < c.ctx.blockCount)
    (hne : blocks ≠ []) (hmatch : ScopesMatch outerInfo c.blockInfo blocks)
    (h : createStatements c ss.toAst = some c') :
    Emitted c.ctx c'.ctx (ss.code (outerRegs outerInfo) blocks c.regCount) := by
  induction ss generalizing c c' blocks with
  | done =>
      obtain rfl := Option.some.inj h
      exact .of_insts rfl rfl
  | assign varName value rest ih =>
      obtain ⟨c₁, hc₁, hrest⟩ := createStatements_cons.mp h
      have hassign := createStatement_assign.mp hc₁
      obtain ⟨hsimple, hregs, hinfo, -⟩ := createAssignment_created hb hassign
      have hemitted := createAssignment_emitted hassign
      rw [hmatch.lookup_eq] at hemitted
      have hrest' := ih (by rw [hsimple.block, hsimple.blockCount]; exact hb) hne
        (hinfo ▸ hmatch) hrest
      rw [hregs] at hrest'
      exact hemitted.trans hrest'
  | declare dataType op varName value rest ih =>
      obtain ⟨c₂, hc₂, hrest⟩ := createStatements_cons.mp h
      obtain ⟨c₁, hreg, hassign⟩ := createStatement_declare.mp hc₂
      obtain ⟨hblock, hctx, hcount, -, -, hself⟩ := createReg_scopes hreg
      have hmatch₁ := hmatch.createReg hne hreg
      have hb₁ : c₁.block < c₁.ctx.blockCount := by
        rw [hblock, hctx]
        exact hb
      obtain ⟨hsimple, hregs, hinfo, -⟩ := createAssignment_created hb₁ hassign
      have hemitted := createAssignment_emitted hassign
      rw [hself, hmatch₁.lookup_eq, hctx] at hemitted
      have hne₁ : declareIn blocks varName c.regCount ≠ [] := by
        cases blocks with
        | nil => exact absurd rfl hne
        | cons decls blocks => exact List.cons_ne_nil _ _
      have hrest' := ih (by rw [hsimple.block, hsimple.blockCount]; exact hb₁) hne₁
        (hinfo ▸ hmatch₁) hrest
      rw [hregs, hcount] at hrest'
      exact hemitted.trans hrest'
  | ifThen condition body rest ihbody ihrest =>
      obtain ⟨c₂, hc₂, hrest⟩ := createStatements_cons.mp h
      obtain ⟨c₁, v, inner, hv, hinner, rfl⟩ := createStatement_if.mp hc₂
      have hval := createValue_appended hv
      have hcreated := createStatements_created (c := c₁.enterBlock) (Nat.lt_succ_self _) hinner
      have hmatch₁ : ScopesMatch outerInfo c₁.blockInfo blocks := hval.blockInfo ▸ hmatch
      have hcond := hval.emitted
      rw [hmatch.lookup_eq] at hcond
      have hbody := ihbody (Nat.lt_succ_self _) (List.cons_ne_nil _ _) hmatch₁.enterBlock hinner
      rw [show c₁.enterBlock.regCount = c.regCount from hval.regCount] at hbody
      have hjumps : Emitted inner.ctx (c₁.endIf inner v).ctx [.jumpCond, .jump] :=
        (emitted_blockNew _).trans ((Emitted.one _ _ _ _ _).trans (.one _ _ _ _ _))
      have hresumed := resumed_endIf v hval.blockInfo hval.regCount hcreated
      have hrest' := ihrest hresumed.block_lt hne (hresumed.blockInfo ▸ hmatch) hrest
      rw [hresumed.regCount] at hrest'
      exact ((hcond.trans ((emitted_blockNew _).trans hbody)).trans hjumps).trans hrest'
  | whileDo condition body rest ihbody ihrest =>
      obtain ⟨c₂, hc₂, hrest⟩ := createStatements_cons.mp h
      obtain ⟨inner, c₁, v, hinner, hv, rfl⟩ := createStatement_while.mp hc₂
      have hcreated := createStatements_created (c := c.enterLoop.enterBlock)
        (Nat.lt_succ_self _) hinner
      have hval := createValue_appended hv
      have hinfo : (c.loopHead inner).blockInfo = c.blockInfo := hcreated.blockInfo
      have henter : Emitted c.ctx c.enterLoop.ctx [.jump] :=
        (emitted_blockNew _).trans (.one _ _ _ _ _)
      have hbody := ihbody (c := c.enterLoop.enterBlock) (Nat.lt_succ_self _) (List.cons_ne_nil _ _)
        hmatch.enterBlock hinner
      have hback : Emitted inner.ctx (c.loopHead inner).ctx [.jump] :=
        (Emitted.one _ _ _ _ _).trans (emitted_blockNew _)
      have hcond := hval.emitted
      rw [scopes_of_blockInfo hinfo, hmatch.lookup_eq] at hcond
      have hjump : Emitted c₁.ctx (c.endLoop inner c₁ v).ctx [.jumpCond] := .one _ _ _ _ _
      have hresumed := resumed_endLoop v hcreated hval.blockInfo hval.regCount hval.blockCount
      have hrest' := ihrest hresumed.block_lt hne (hresumed.blockInfo ▸ hmatch) hrest
      rw [hresumed.regCount] at hrest'
      exact ((((henter.trans ((emitted_blockNew _).trans hbody)).trans hback).trans hcond).trans
        hjump).trans hrest'
  | ret rest ih =>
      obtain ⟨c₁, hc₁, hrest⟩ := createStatements_cons.mp h
      obtain rfl := Option.some.inj ((createStatement_return c).symm.trans hc₁)
      exact (Emitted.one _ _ _ _ _).trans (ih (c := c.emit .ret .void []) hb hne hmatch hrest)
  | other node hignored rest ih =>
      obtain ⟨c₁, hc₁, hrest⟩ := createStatements_cons.mp h
      obtain rfl := Option.some.inj ((createStatement_ignored c hignored).symm.trans hc₁)
      exact ih hb hne hmatch hrest

/-! ## Creation succeeds -/

theorem Expression.Resolved.int64In {e : Expression}
    (hmatch : ScopesMatch outerInfo c.blockInfo blocks) (hint : Int64Only c.blockInfo)
    (h : e.Resolved (resolve (outerRegs outerInfo) blocks)) :
    e.Int64In c.blockInfo := by
  induction e with
  | number num => trivial
  | var varName =>
      obtain ⟨rId, hrId⟩ := Option.isSome_iff_exists.mp h
      rw [← hmatch.findReg_eq] at hrId
      obtain ⟨var, hvar, -⟩ := Option.map_eq_some_iff.mp hrId
      exact ⟨var, hvar, hint.dataType_eq hvar⟩
  | binary op left right ihl ihr => exact ⟨ihl h.1, ihr h.2⟩

theorem createAssignment_int64 {varName : Range} {e : Expression}
    (hmatch : ScopesMatch outerInfo c.blockInfo blocks) (hint : Int64Only c.blockInfo)
    (hvar : (resolve (outerRegs outerInfo) blocks varName).isSome)
    (h : e.Resolved (resolve (outerRegs outerInfo) blocks)) :
    ∃ c', createAssignment c (.variable varName false) e.toAst = some c' := by
  obtain ⟨rId, hrId⟩ := Option.isSome_iff_exists.mp hvar
  rw [← hmatch.findReg_eq] at hrId
  obtain ⟨var, hvar, -⟩ := Option.map_eq_some_iff.mp hrId
  obtain ⟨c₁, v, hv, -⟩ := createValue_int64 (h.int64In hmatch hint)
  exact ⟨_, createAssignment_eq_some.mpr ⟨var, c₁, v, hvar, hv, rfl⟩⟩

/-- A name that has just been declared. -/
theorem resolve_declareIn {outer : Range → Option ℕ} (hne : blocks ≠ []) (varName : Range) (n : ℕ) :
    resolve outer (declareIn blocks varName n) varName = some n := by
  cases blocks with
  | nil => exact absurd rfl hne
  | cons decls blocks =>
      unfold resolve declareIn
      rw [List.findSome?_cons, List.lookup_cons, beq_self_eq_true]
      rfl

/-- **Creation succeeds** when all variables are `int64`s. -/
theorem createStatements_int64 {ss : Statements} (hb : c.block < c.ctx.blockCount)
    (hne : blocks ≠ []) (hmatch : ScopesMatch outerInfo c.blockInfo blocks)
    (hint : Int64Only c.blockInfo) (hdecl : ss.DeclaresInt64)
    (h : ss.Lexical (outerRegs outerInfo) blocks c.regCount) :
    ∃ c', createStatements c ss.toAst = some c' := by
  induction ss generalizing c blocks with
  | done => exact ⟨c, rfl⟩
  | assign varName value rest ih =>
      obtain ⟨hvar, hvalue, hrest⟩ := h
      obtain ⟨c₁, hassign⟩ := createAssignment_int64 hmatch hint hvar hvalue
      obtain ⟨hsimple, hregs, hinfo, -⟩ := createAssignment_created hb hassign
      obtain ⟨c', hc'⟩ := ih (c := c₁) (by rw [hsimple.block, hsimple.blockCount]; exact hb) hne
        (hinfo ▸ hmatch) (hinfo ▸ hint) hdecl (hregs ▸ hrest)
      exact ⟨c', createStatements_cons.mpr ⟨c₁, createStatement_assign.mpr hassign, hc'⟩⟩
  | declare dataType op varName value rest ih =>
      obtain ⟨rfl, hdecl⟩ := hdecl
      obtain ⟨hfree, hvalue, hrest⟩ := h
      have hinfo : c.blockInfo ≠ [] := by
        intro hnil
        rw [hnil] at hmatch
        cases hmatch with
        | outer => exact hne rfl
      have hhead : (c.scopes.head?.bind (· varName)) = none := by
        unfold IrCreator.scopes
        generalize c.blockInfo = blockInfo at hmatch
        cases hmatch with
        | outer => exact absurd rfl hne
        | block hm _ => exact (hm varName).trans hfree
      obtain ⟨c₁, hreg, hint₁, -⟩ := createReg_succeeds hinfo hint hhead
      obtain ⟨hblock, hctx, hcount, -, -, -⟩ := createReg_scopes hreg
      have hmatch₁ := hmatch.createReg hne hreg
      have hvar₁ : (resolve (outerRegs outerInfo) (declareIn blocks varName c.regCount)
          varName).isSome := by
        rw [resolve_declareIn hne]
        rfl
      obtain ⟨c₂, hassign⟩ := createAssignment_int64 hmatch₁ hint₁ hvar₁ hvalue
      have hb₁ : c₁.block < c₁.ctx.blockCount := by
        rw [hblock, hctx]
        exact hb
      obtain ⟨hsimple, hregs, hinfo₂, -⟩ := createAssignment_created hb₁ hassign
      have hne₁ : declareIn blocks varName c.regCount ≠ [] := by
        cases blocks with
        | nil => exact absurd rfl hne
        | cons decls blocks => exact List.cons_ne_nil _ _
      obtain ⟨c', hc'⟩ := ih (c := c₂) (by rw [hsimple.block, hsimple.blockCount]; exact hb₁) hne₁
        (hinfo₂ ▸ hmatch₁) (hinfo₂ ▸ hint₁) hdecl (by rw [hregs, hcount]; exact hrest)
      exact ⟨c', createStatements_cons.mpr
        ⟨c₂, createStatement_declare.mpr ⟨c₁, hreg, hassign⟩, hc'⟩⟩
  | ifThen condition body rest ihbody ihrest =>
      obtain ⟨hcond, hbody, hrest⟩ := h
      obtain ⟨c₁, v, hv, -⟩ := createValue_int64 (hcond.int64In hmatch hint)
      have hval := createValue_appended hv
      have hmatch₁ : ScopesMatch outerInfo c₁.blockInfo blocks := hval.blockInfo ▸ hmatch
      obtain ⟨inner, hinner⟩ := ihbody (c := c₁.enterBlock) (Nat.lt_succ_self _)
        (List.cons_ne_nil _ _) hmatch₁.enterBlock (Int64Only.enterBlock (hval.blockInfo ▸ hint))
        hdecl.1 (by rw [show c₁.enterBlock.regCount = c.regCount from hval.regCount]; exact hbody)
      have hcreated := createStatements_created (c := c₁.enterBlock) (Nat.lt_succ_self _) hinner
      have hresumed := resumed_endIf v hval.blockInfo hval.regCount hcreated
      obtain ⟨c', hc'⟩ := ihrest hresumed.block_lt hne (hresumed.blockInfo ▸ hmatch)
        (hresumed.blockInfo ▸ hint) hdecl.2 (hresumed.regCount ▸ hrest)
      exact ⟨c', createStatements_cons.mpr
        ⟨_, createStatement_if.mpr ⟨c₁, v, inner, hv, hinner, rfl⟩, hc'⟩⟩
  | whileDo condition body rest ihbody ihrest =>
      obtain ⟨hcond, hbody, hrest⟩ := h
      obtain ⟨inner, hinner⟩ := ihbody (c := c.enterLoop.enterBlock) (Nat.lt_succ_self _)
        (List.cons_ne_nil _ _) hmatch.enterBlock (Int64Only.enterBlock (c := c.enterLoop) hint)
        hdecl.1 hbody
      have hcreated := createStatements_created (c := c.enterLoop.enterBlock)
        (Nat.lt_succ_self _) hinner
      have hinfo : (c.loopHead inner).blockInfo = c.blockInfo := hcreated.blockInfo
      have hmatch₁ : ScopesMatch outerInfo (c.loopHead inner).blockInfo blocks := hinfo ▸ hmatch
      obtain ⟨c₁, v, hv, -⟩ := createValue_int64 (hcond.int64In hmatch₁ (hinfo ▸ hint))
      have hval := createValue_appended hv
      have hresumed := resumed_endLoop v hcreated hval.blockInfo hval.regCount hval.blockCount
      obtain ⟨c', hc'⟩ := ihrest hresumed.block_lt hne (hresumed.blockInfo ▸ hmatch)
        (hresumed.blockInfo ▸ hint) hdecl.2 (hresumed.regCount ▸ hrest)
      exact ⟨c', createStatements_cons.mpr
        ⟨_, createStatement_while.mpr ⟨inner, c₁, v, hinner, hv, rfl⟩, hc'⟩⟩
  | ret rest ih =>
      obtain ⟨c', hc'⟩ := ih (c := c.emit .ret .void []) hb hne hmatch hint hdecl h
      exact ⟨c', createStatements_cons.mpr ⟨_, createStatement_return c, hc'⟩⟩
  | other node hignored rest ih =>
      obtain ⟨c', hc'⟩ := ih hb hne hmatch hint hdecl h
      exact ⟨c', createStatements_cons.mpr ⟨c, createStatement_ignored c hignored, hc'⟩⟩

end Emit

/-! ## The block -/

/-- **Names resolve lexically.**  A block whose names are declared emits instructions with
the numbers of the declarations that the names stand for, and the numbers are new and
distinct; then the scopes and the current block are those from before.  With `int64`
variables creation succeeds. -/
theorem createBlock_resolves (c : IrCreator) (body : Statements)
    (h : body.Lexical (outerRegs c.blockInfo) [[]] c.regCount) :
    (body.DeclaresInt64 → Int64Only c.blockInfo →
      ∃ r, createBlock c (.block body.toAst) = some r) ∧
    ∀ c' bblock last, createBlock c (.block body.toAst) = some (c', bblock, last) →
      Emitted c.ctx c'.ctx (body.code (outerRegs c.blockInfo) [[]] c.regCount) ∧
      ((body.numbered c.regCount).map Prod.snd).Nodup ∧
      (∀ d ∈ body.numbered c.regCount, c.regCount ≤ d.2 ∧ d.2 < c'.regCount) ∧
      c'.blockInfo = c.blockInfo ∧ c'.block = c.block := by
  have hmatch : ScopesMatch c.blockInfo c.enterBlock.blockInfo [[]] := .enterBlock .outer
  refine ⟨fun hdecl hint => ?_, fun c' bblock last hcreate => ?_⟩
  · obtain ⟨inner, hinner⟩ := createStatements_int64 (c := c.enterBlock) (Nat.lt_succ_self _)
      (List.cons_ne_nil _ _) hmatch (Int64Only.enterBlock hint) hdecl h
    exact ⟨_, createBlock_eq_some.mpr ⟨inner, hinner, rfl⟩⟩
  · obtain ⟨inner, hinner, hr⟩ := createBlock_eq_some.mp hcreate
    cases hr
    have hcreated := createStatements_created (c := c.enterBlock) (Nat.lt_succ_self _) hinner
    have hemitted := createStatements_emitted (c := c.enterBlock) (Nat.lt_succ_self _)
      (List.cons_ne_nil _ _) hmatch hinner
    refine ⟨(emitted_blockNew c.ctx).trans hemitted, ?_, fun d hd => ?_, hcreated.blockInfo, rfl⟩
    · rw [numbered_numbers]
      exact List.nodup_range'
    · have hmem := List.mem_map_of_mem (f := Prod.snd) hd
      rw [numbered_numbers] at hmem
      refine ⟨(List.mem_range'_1.mp hmem).1, ?_⟩
      show d.2 < inner.regCount
      rw [hcreated.regCount]
      exact (List.mem_range'_1.mp hmem).2

/-- `int64 a = a; if (a) { int64 a = a; } a = a;` -/
def shadowed : Statements :=
  .declare .KW_INT64 .ASSIGN "a".toUTF8.toList (.var "a".toUTF8.toList)
    (.ifThen (.var "a".toUTF8.toList)
      (.declare .KW_INT64 .ASSIGN "a".toUTF8.toList (.var "a".toUTF8.toList) .done)
      (.assign "a".toUTF8.toList (.var "a".toUTF8.toList) .done))

/-- The names of the inner block stand for the register `1`, the others for `0`. -/
example : shadowed.code (fun _ => none) [[]] 0 = [.loadVar 0, .assignVar 0, .loadVar 0,
    .loadVar 1, .assignVar 1, .jumpCond, .jump, .loadVar 0, .assignVar 0] := by decide +kernel

theorem createBlock_resolves_shadowed :
    (shadowed.DeclaresInt64 → Int64Only (irCreatorInit irContextInit).blockInfo →
      ∃ r, createBlock (irCreatorInit irContextInit) (.block shadowed.toAst) = some r) ∧
    ∀ c' bblock last, createBlock (irCreatorInit irContextInit) (.block shadowed.toAst) =
        some (c', bblock, last) →
      Emitted irContextInit c'.ctx (shadowed.code (outerRegs []) [[]] 0) ∧
      ((shadowed.numbered 0).map Prod.snd).Nodup ∧
      (∀ d ∈ shadowed.numbered 0, 0 ≤ d.2 ∧ d.2 < c'.regCount) ∧
      c'.blockInfo = [] ∧ c'.block = 0 :=
  createBlock_resolves (irCreatorInit irContextInit) shadowed (by
    unfold shadowed
    simp only [Statements.Lexical, Expression.Resolved]
    decide +kernel)
