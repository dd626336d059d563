/-
# Where the code of statements lies

`createStatements_created` : creating statements changes only the current block and new
blocks, and the code lies in the `Ir` as `StatementsCode` says, also after more has been
created.  The proof composes the extensions that the single steps make.  Creation accepts
all well-scoped statements (`createStatements_succeeds`).
-/
import MCompiler.IrCreationSpec

/-! ## Layout of the code -/

/-- What creating statements does: the register numbers count the declarations, the outer
variable maps stay, only the current block grows among those that exist, and the current
block is another one afterwards exactly if the statements branch.  The code of the
statements lies in every later `Ir` that leaves the other new blocks as they are. -/
structure StatementsCreated (c : IrCreator) (ss : Statements) (c' : IrCreator) : Prop where
  regCount : c'.regCount = c.regCount + ss.declarations
  blockInfo : c'.blockInfo.tail = c.blockInfo.tail
  block_lt : c'.block < c'.ctx.blockCount
  block_eq : ss.branches = false → c'.block = c.block
  block_new : ss.branches = true → c.ctx.blockCount ≤ c'.block
  grows : Extends (· = c.block) c.ctx c'.ctx
  code : ∀ {ir}, Extends (fun b => b < c.ctx.blockCount ∨ b = c'.block) c'.ctx ir →
    StatementsCode ir c.scopes c.regCount ss c.block c.pos c'.block c'.pos

/-- The current block is the old one or a new one. -/
theorem StatementsCreated.block_cases {c c' : IrCreator} {ss : Statements}
    (h : StatementsCreated c ss c') : c'.block = c.block ∨ c.ctx.blockCount ≤ c'.block := by
  cases hbr : ss.branches with
  | false => exact .inl (h.block_eq hbr)
  | true => exact .inr (h.block_new hbr)

/-- What creating a statement that does not branch does. -/
structure SimpleCreated (c c' : IrCreator) : Prop where
  block : c'.block = c.block
  blockInfo : c'.blockInfo.tail = c.blockInfo.tail
  blockCount : c'.ctx.blockCount = c.ctx.blockCount
  grows : Extends (· = c.block) c.ctx c'.ctx

/-- A statement that does not branch before others. -/
theorem StatementsCreated.cons_simple {c c₁ c' : IrCreator} {ss rest : Statements}
    (hfirst : SimpleCreated c c₁) (hrest : StatementsCreated c₁ rest c')
    (hregs : c₁.regCount + rest.declarations = c.regCount + ss.declarations)
    (hbranches : ss.branches = rest.branches)
    (hcode : ∀ {ir}, Extends (fun _ => True) c₁.ctx ir →
      StatementsCode ir c₁.scopes c₁.regCount rest c.block c₁.pos c'.block c'.pos →
      StatementsCode ir c.scopes c.regCount ss c.block c.pos c'.block c'.pos) :
    StatementsCreated c ss c' where
  regCount := hrest.regCount.trans hregs
  blockInfo := hrest.blockInfo.trans hfirst.blockInfo
  block_lt := hrest.block_lt
  block_eq h := (hrest.block_eq (hbranches ▸ h)).trans hfirst.block
  block_new h := hfirst.blockCount ▸ hrest.block_new (hbranches ▸ h)
  grows := hfirst.grows.trans hrest.grows fun _ _ hb => ⟨hb, hfirst.block ▸ hb⟩
  code {ir} hext := by
    have hcode' := hrest.code (hext.mono fun b _ hb => by rwa [hfirst.blockCount] at hb)
    rw [hfirst.block] at hcode'
    exact hcode (hrest.grows.trans hext fun _ _ h => absurd trivial h) hcode'

theorem scopes_of_blockInfo {c c' : IrCreator} (h : c'.blockInfo = c.blockInfo) :
    c'.scopes = c.scopes := by
  unfold IrCreator.scopes
  rw [h]

/-- An assignment. -/
theorem createAssignment_created {c c₁ : IrCreator} {varName : Range} {e : Expression}
    (hb : c.block < c.ctx.blockCount)
    (h : createAssignment c (.variable varName false) e.toAst = some c₁) :
    SimpleCreated c c₁ ∧ c₁.regCount = c.regCount ∧ c₁.blockInfo = c.blockInfo ∧
      ∃ rId, c.scopes.lookup varName = some rId ∧
        ∀ {S ir}, Extends S c₁.ctx ir → ∃ v k j i, ExpressionCode ir c.scopes c.block c.pos
          c.ctx.instCount e v k i ∧ HasInst ir c.block k j (.assignVar rId) [some v] ∧
          c₁.pos = k + 1 := by
  obtain ⟨var, c₀, v, hvar, hv, rfl⟩ := createAssignment_eq_some.mp h
  have hval := createValue_created hb hv
  have hemit := extends_emit c₀.ctx c₀.block (.assignVar var.rId) .void [some v]
  have hgrows : Extends (· = c.block) c.ctx (c₀.emit (.assignVar var.rId) .void [some v]).ctx :=
    hval.grows.trans hemit fun b _ hb => ⟨hb, fun h => hb (h.trans hval.block)⟩
  refine ⟨⟨hval.block, congrArg List.tail hval.blockInfo, hval.blockCount, hgrows⟩,
    hval.regCount, hval.blockInfo, var.rId, ?_, fun {S ir} hext => ?_⟩
  · rw [lookup_scopes, hvar]
    rfl
  · have hb₀ : c₀.block < c₀.ctx.blockCount := by
      rw [hval.block, hval.blockCount]
      exact hb
    have hinst := hext.hasInst hb₀ (Nat.lt_succ_self _)
      (hasInst_emit c₀.ctx c₀.block (.assignVar var.rId) .void [some v])
    rw [hval.block] at hinst
    refine ⟨v, c₀.pos, c₀.ctx.instCount, _,
      hval.code (hemit.trans hext (T := fun _ => True) fun _ _ h => absurd trivial h), ?_,
      pos_emit _ _ _ _⟩
    unfold IrCreator.pos
    rw [hval.block]
    exact hinst

/-- A declaration. -/
theorem createReg_scopes {c c₁ : IrCreator} {varName : Range} {dataType : TokenType}
    (h : createReg c varName dataType = some c₁) :
    c₁.block = c.block ∧ c₁.ctx = c.ctx ∧ c₁.regCount = c.regCount + 1 ∧
      c₁.blockInfo.tail = c.blockInfo.tail ∧
      c₁.scopes = c.scopes.declare varName c.regCount ∧
      c₁.scopes.lookup varName = some c.regCount := by
  obtain ⟨m, ms, hinfo, hm, rfl⟩ := createReg_eq_some.mp h
  have hscopes : c.scopes = (fun y => (m y).map CreatorVariable.rId) ::
      ms.map fun m y => (m y).map CreatorVariable.rId := by
    unfold IrCreator.scopes
    rw [hinfo]
    rfl
  have hdeclare : (fun y => (Function.update m varName (some ⟨c.regCount, dataType⟩) y).map
      CreatorVariable.rId) = Function.update (fun y => (m y).map CreatorVariable.rId) varName
        (some c.regCount) := by
    funext y
    by_cases hy : y = varName
    · subst hy
      rw [Function.update_self, Function.update_self]
      rfl
    · rw [Function.update_of_ne hy, Function.update_of_ne hy]
  have heq : IrCreator.scopes { c with
      blockInfo := Function.update m varName (some ⟨c.regCount, dataType⟩) :: ms
      regCount := c.regCount + 1 } = c.scopes.declare varName c.regCount := by
    rw [hscopes]
    unfold IrCreator.scopes
    rw [List.map_cons, hdeclare]
    rfl
  refine ⟨rfl, rfl, rfl, by rw [hinfo]; rfl, heq, ?_⟩
  rw [heq, lookup_declare _ (by rw [hscopes]; exact List.cons_ne_nil _ _), if_pos rfl]

/-! ## What the steps of an `if` and of a `while` change -/

/-- A nested block leaves all existing blocks as they are. -/
theorem StatementsCreated.enterBlock_grows {c inner : IrCreator} {body : Statements}
    (hbody : StatementsCreated c.enterBlock body inner) :
    Extends (fun b => c.ctx.blockCount ≤ b) c.ctx inner.ctx :=
  (extends_blockNew c.ctx).trans hbody.grows fun b _ hT =>
    ⟨id, show ¬ b = c.ctx.blockCount by omega⟩

/-- The jumps at the end of an `if`. -/
theorem endIf_grows (c inner : IrCreator) (v : Value) :
    Extends (fun b => b = c.block ∨ b = inner.block) (blockNew inner.ctx).1
      (c.endIf inner v).ctx :=
  (extends_emit (blockNew inner.ctx).1 c.block .jumpCond .void
    [some (.block c.ctx.blockCount), some (.block inner.ctx.blockCount), some v]).trans
      (extends_emit _ inner.block .jump .void [some (.block inner.ctx.blockCount)])
      fun _ _ hT => not_or.mp hT

/-- The jump to the head of a `while`. -/
theorem enterLoop_grows (c : IrCreator) : Extends (· = c.block) c.ctx c.enterLoop.ctx :=
  (extends_blockNew c.ctx).trans
    (extends_emit (blockNew c.ctx).1 c.block .jump .void [some (.block c.ctx.blockCount)])
    fun _ _ hT => ⟨id, hT⟩

/-- The jump back goes into the first block of the body. -/
theorem loopHead_grows (c inner : IrCreator) :
    Extends (· = c.ctx.blockCount + 1) inner.ctx (c.loopHead inner).ctx :=
  (extends_emit inner.ctx (c.ctx.blockCount + 1) .jump .void
    [some (.block c.ctx.blockCount)]).trans (extends_blockNew _) fun _ _ hT => ⟨hT, id⟩

/-- The condition is in the head. -/
theorem endLoop_grows {c inner c₁ : IrCreator} {condition : Expression} {v : Value}
    (hval : ValueCreated (c.loopHead inner) condition c₁ v) :
    Extends (· = c.ctx.blockCount) (c.loopHead inner).ctx (c.endLoop inner c₁ v).ctx :=
  hval.grows.trans (extends_emit c₁.ctx c₁.block .jumpCond .void
    [some (.block (c.ctx.blockCount + 1)), some (.block inner.ctx.blockCount), some v])
    fun _ _ hT => ⟨hT, fun h => hT (h.trans hval.block)⟩

/-- Creation goes on behind an `if` or a `while`: in the scopes from before, with the registers
of the body counted. -/
structure Resumed (c c₂ : IrCreator) (body : Statements) : Prop where
  blockInfo : c₂.blockInfo = c.blockInfo
  regCount : c₂.regCount = c.regCount + body.declarations
  block_lt : c₂.block < c₂.ctx.blockCount

theorem resumed_endIf {c c₁ inner : IrCreator} {body : Statements} (v : Value)
    (hinfo : c₁.blockInfo = c.blockInfo) (hregs : c₁.regCount = c.regCount)
    (hbody : StatementsCreated c₁.enterBlock body inner) : Resumed c (c₁.endIf inner v) body where
  blockInfo := Eq.trans hbody.blockInfo hinfo
  regCount := by
    rw [← hregs]
    exact hbody.regCount
  block_lt := Nat.lt_succ_self _

/-- The condition of a `while` is made in its head. -/
theorem StatementsCreated.loopHead_lt {c inner : IrCreator} {body : Statements}
    (h : StatementsCreated c.enterLoop.enterBlock body inner) :
    (c.loopHead inner).block < (c.loopHead inner).ctx.blockCount := by
  have hcount : c.ctx.blockCount + 2 ≤ inner.ctx.blockCount := h.grows.blockCount
  show c.ctx.blockCount < inner.ctx.blockCount + 1
  omega

/-- Creation goes on in the block behind a `while`. -/
theorem ValueCreated.endLoop_lt {c inner c₁ : IrCreator} {condition : Expression} {v : Value}
    (h : ValueCreated (c.loopHead inner) condition c₁ v) :
    (c.endLoop inner c₁ v).block < (c.endLoop inner c₁ v).ctx.blockCount := by
  show inner.ctx.blockCount < c₁.ctx.blockCount
  rw [h.blockCount]
  exact Nat.lt_succ_self _

theorem resumed_endLoop {c inner c₁ : IrCreator} {body : Statements} (v : Value)
    (hbody : StatementsCreated c.enterLoop.enterBlock body inner)
    (hinfo : c₁.blockInfo = (c.loopHead inner).blockInfo)
    (hregs : c₁.regCount = (c.loopHead inner).regCount)
    (hcount : c₁.ctx.blockCount = (c.loopHead inner).ctx.blockCount) :
    Resumed c (c.endLoop inner c₁ v) body where
  blockInfo := hinfo.trans hbody.blockInfo
  regCount := hregs.trans hbody.regCount
  block_lt := by
    show inner.ctx.blockCount < c₁.ctx.blockCount
    rw [hcount]
    exact Nat.lt_succ_self _

/-- An `if` before other statements. -/
theorem createIf_created {c c₁ inner c' : IrCreator} {condition : Expression} {v : Value}
    {body rest : Statements} (hb : c.block < c.ctx.blockCount)
    (hval : ValueCreated c condition c₁ v) (hbody : StatementsCreated c₁.enterBlock body inner)
    (hrest : StatementsCreated (c₁.endIf inner v) rest c') :
    StatementsCreated c (.ifThen condition body rest) c' := by
  have hblock₁ := hval.block
  have hcount₁ := hval.blockCount
  have hcountI : c₁.ctx.blockCount + 1 ≤ inner.ctx.blockCount := hbody.grows.blockCount
  have hlast : inner.block < inner.ctx.blockCount := hbody.block_lt
  have hlast' : inner.block = c₁.ctx.blockCount ∨ c₁.ctx.blockCount + 1 ≤ inner.block :=
    hbody.block_cases
  have hcur : c'.block = inner.ctx.blockCount ∨ inner.ctx.blockCount + 1 ≤ c'.block :=
    hrest.block_cases
  have hresumed := resumed_endIf v hval.blockInfo hval.regCount hbody
  -- what each step changes
  have h₆ := extends_emit ((blockNew inner.ctx).1.emit c₁.block .jumpCond .void
    [some (.block c₁.ctx.blockCount), some (.block inner.ctx.blockCount), some v]) inner.block
      .jump .void [some (.block inner.ctx.blockCount)]
  have h₂₄ : Extends (fun b => c₁.ctx.blockCount ≤ b) c₁.ctx (blockNew inner.ctx).1 :=
    hbody.enterBlock_grows.trans (extends_blockNew inner.ctx) fun b _ hT => ⟨hT, id⟩
  have h₅₆ := endIf_grows c₁ inner v
  have h₂₆ : Extends (fun b => b = c₁.block ∨ c₁.ctx.blockCount ≤ b) c₁.ctx
      (c₁.endIf inner v).ctx :=
    h₂₄.trans h₅₆ fun b hb hT => by omega
  refine ⟨?_, hrest.blockInfo.trans (congrArg List.tail hresumed.blockInfo), hrest.block_lt,
    fun h => absurd h (by simp [Statements.branches]), fun _ => ?_, ?_, fun {ir} hext => ?_⟩
  · rw [hrest.regCount, hresumed.regCount, Statements.declarations, Nat.add_assoc]
  · omega
  · refine (hval.grows.trans h₂₆ (T := (· = c.block)) fun b hb hT => ?_).trans hrest.grows
      fun b hb hT => ⟨hT, ?_⟩
    · omega
    · show ¬ b = inner.ctx.blockCount
      omega
  · -- the later contexts, seen from the end of the `if`
    have h₇ : Extends (fun b => b < (c₁.endIf inner v).ctx.blockCount ∨ b = c'.block)
        c'.ctx ir := hext.mono fun b _ hT => by
      rw [show (c₁.endIf inner v).ctx.blockCount = inner.ctx.blockCount + 1 from rfl] at hT
      omega
    have h₈ : Extends (fun b => b < c.ctx.blockCount ∨ b = inner.ctx.blockCount)
        (c₁.endIf inner v).ctx ir := hrest.grows.trans hext fun b hb hT => by
      rw [show (c₁.endIf inner v).ctx.blockCount = inner.ctx.blockCount + 1 from rfl] at hb
      show ¬ b = inner.ctx.blockCount ∧ _
      omega
    have hcond := hval.code (h₂₆.trans h₈ (T := fun _ => True) fun _ _ h => absurd trivial h)
    have hI : Extends (fun b => b < c₁.ctx.blockCount + 1 ∨ b = inner.block) inner.ctx ir :=
      ((extends_blockNew inner.ctx).trans h₅₆ (T := fun b => b = c₁.block ∨ b = inner.block)
        fun b _ hT => ⟨id, hT⟩).trans h₈ fun b hb hT => by omega
    have hcode := hbody.code hI
    -- where the two jumps are
    have hunchanged : (blockNew inner.ctx).1.blocks c₁.block = c₁.ctx.blocks c₁.block :=
      h₂₄.unchanged _ (by omega) (by omega)
    have hcjump := h₆.hasInst (show c₁.block < inner.ctx.blockCount + 1 by omega)
      (Nat.lt_succ_self _) (hasInst_emit (blockNew inner.ctx).1 c₁.block .jumpCond .void
        [some (.block c₁.ctx.blockCount), some (.block inner.ctx.blockCount), some v])
    have hjump := hasInst_emit ((blockNew inner.ctx).1.emit c₁.block .jumpCond .void
      [some (.block c₁.ctx.blockCount), some (.block inner.ctx.blockCount), some v]) inner.block
        .jump .void [some (.block inner.ctx.blockCount)]
    have hcjump' := h₈.hasInst (show c₁.block < inner.ctx.blockCount + 1 by omega)
      (Nat.lt_of_lt_of_le (Nat.lt_succ_self _) h₆.instCount) hcjump
    have hjump' := h₈.hasInst (show inner.block < inner.ctx.blockCount + 1 by omega)
      (Nat.lt_succ_self _) hjump
    rw [hunchanged] at hcjump'
    rw [emit_blocks_of_ne _ _ _ _ _ (show inner.block ≠ c₁.block by omega),
      blockNew_blocks_of_ne _ (Nat.ne_of_lt hlast)] at hjump'
    -- the block after the `if` is empty
    have hempty : (c₁.endIf inner v).pos = 0 := congrArg List.length
      ((h₅₆.unchanged inner.ctx.blockCount (Nat.lt_succ_self _) (by omega)).trans
        (blockNew_blocks_self inner.ctx))
    have hrestcode := hrest.code h₇
    rw [hempty, scopes_of_blockInfo hresumed.blockInfo, hresumed.regCount] at hrestcode
    rw [scopes_enterBlock, scopes_of_blockInfo hval.blockInfo,
      show c₁.enterBlock.regCount = c₁.regCount from rfl, hval.regCount] at hcode
    have hstart : c₁.enterBlock.pos = 0 := congrArg List.length (blockNew_blocks_self c₁.ctx)
    rw [hstart] at hcode
    have hpos : (c₁.ctx.blocks c₁.block).length = c₁.pos := rfl
    rw [hpos, hblock₁] at hcjump'
    exact .ifThen hcond hcjump' hcode hjump' hrestcode

/-- A `while` before other statements. -/
theorem createWhile_created {c inner c₁ c' : IrCreator} {condition : Expression} {v : Value}
    {body rest : Statements} (hb : c.block < c.ctx.blockCount)
    (hbody : StatementsCreated c.enterLoop.enterBlock body inner)
    (hval : ValueCreated (c.loopHead inner) condition c₁ v)
    (hrest : StatementsCreated (c.endLoop inner c₁ v) rest c') :
    StatementsCreated c (.whileDo condition body rest) c' := by
  have hblock₁ : c₁.block = c.ctx.blockCount := hval.block
  have hcount₁ : c₁.ctx.blockCount = inner.ctx.blockCount + 1 := hval.blockCount
  have hcountI : c.ctx.blockCount + 2 ≤ inner.ctx.blockCount := hbody.grows.blockCount
  have hlast : inner.block < inner.ctx.blockCount := hbody.block_lt
  have hlast' : inner.block = c.ctx.blockCount + 1 ∨ c.ctx.blockCount + 2 ≤ inner.block :=
    hbody.block_cases
  have hcount₂ : (c.endLoop inner c₁ v).ctx.blockCount = inner.ctx.blockCount + 1 := hcount₁
  have hcur : c'.block = inner.ctx.blockCount ∨ inner.ctx.blockCount + 1 ≤ c'.block := by
    have h := hrest.block_cases
    rwa [hcount₂] at h
  have hinfo₀ : (c.loopHead inner).blockInfo = c.blockInfo := hbody.blockInfo
  have hresumed := resumed_endLoop v hbody hval.blockInfo hval.regCount hval.blockCount
  -- what each step changes
  have h₁ := extends_emit (blockNew c.ctx).1 c.block .jump .void [some (.block c.ctx.blockCount)]
  have h₅ : Extends (fun _ => False) (inner.ctx.emit (c.ctx.blockCount + 1) .jump .void
    [some (.block c.ctx.blockCount)]) (c.loopHead inner).ctx := extends_blockNew _
  have h₇ := extends_emit c₁.ctx c₁.block .jumpCond .void
    [some (.block (c.ctx.blockCount + 1)), some (.block inner.ctx.blockCount), some v]
  have h₁₃ : Extends (fun b => c.ctx.blockCount + 1 ≤ b) c.enterLoop.ctx inner.ctx :=
    hbody.enterBlock_grows
  have h₄₅ := loopHead_grows c inner
  have h₆₇ := endLoop_grows hval
  have h₄₇ : Extends (fun b => b = c.ctx.blockCount ∨ b = c.ctx.blockCount + 1) inner.ctx
      (c.endLoop inner c₁ v).ctx := h₄₅.trans h₆₇ fun b _ hT => by omega
  have h₁₇ : Extends (fun b => c.ctx.blockCount ≤ b) c.enterLoop.ctx (c.endLoop inner c₁ v).ctx :=
    h₁₃.trans h₄₇ fun b _ hT => by omega
  have h₀₇ : Extends (· = c.block) c.ctx (c.endLoop inner c₁ v).ctx :=
    (enterLoop_grows c).trans h₁₇ fun b hb hT => ⟨hT, by omega⟩
  refine ⟨?_, hrest.blockInfo.trans (congrArg List.tail hresumed.blockInfo), hrest.block_lt,
    fun h => absurd h (by simp [Statements.branches]), fun _ => ?_, ?_, fun {ir} hext => ?_⟩
  · rw [hrest.regCount, hresumed.regCount, Statements.declarations, Nat.add_assoc]
  · omega
  · refine h₀₇.trans hrest.grows fun b hb hT => ⟨hT, ?_⟩
    show ¬ b = inner.ctx.blockCount
    omega
  · -- the later contexts, seen from the end of the `while`
    have h₈ : Extends (fun b => b < (c.endLoop inner c₁ v).ctx.blockCount ∨ b = c'.block)
        c'.ctx ir := hext.mono fun b _ hT => by rw [hcount₂] at hT; omega
    have h₉ : Extends (fun b => b < c.ctx.blockCount ∨ b = inner.ctx.blockCount)
        (c.endLoop inner c₁ v).ctx ir := hrest.grows.trans hext fun b hb hT => by
      rw [hcount₂] at hb
      show ¬ b = inner.ctx.blockCount ∧ _
      omega
    have hI : Extends (fun b => b < c.ctx.blockCount + 2 ∨ b = inner.block) inner.ctx ir :=
      h₄₇.trans h₉ fun b hb hT => by omega
    have hcode := hbody.code hI
    have hcond := hval.code (h₇.trans h₉ (T := fun _ => True) fun _ _ h => absurd trivial h)
    have hrestcode := hrest.code h₈
    -- where the jumps are
    have hentry := hasInst_emit (blockNew c.ctx).1 c.block .jump .void
      [some (.block c.ctx.blockCount)]
    have hentry' := (h₁₇.trans h₉ (T := fun _ => True) fun _ _ h => absurd trivial h).hasInst
      (show c.block < c.ctx.blockCount + 1 by omega) (Nat.lt_succ_self _) hentry
    rw [blockNew_blocks_of_ne _ (Nat.ne_of_lt hb)] at hentry'
    have hcjump := h₉.hasInst (show c₁.block < c₁.ctx.blockCount by omega) (Nat.lt_succ_self _)
      (hasInst_emit c₁.ctx c₁.block .jumpCond .void
        [some (.block (c.ctx.blockCount + 1)), some (.block inner.ctx.blockCount), some v])
    rw [hblock₁] at hcjump
    have hback := ((h₅.trans h₆₇ (T := fun _ => True) fun _ _ h => absurd trivial h).trans h₉
      (T := fun _ => True) fun _ _ h => absurd trivial h).hasInst
      (show c.ctx.blockCount + 1 < inner.ctx.blockCount by omega) (Nat.lt_succ_self _)
      (hasInst_emit inner.ctx (c.ctx.blockCount + 1) .jump .void [some (.block c.ctx.blockCount)])
    -- the head and the block after the `while` are empty at first
    have hhead : (c.loopHead inner).pos = 0 := by
      show ((c.loopHead inner).ctx.blocks c.ctx.blockCount).length = 0
      rw [h₄₅.unchanged _ (by omega) (by omega), h₁₃.unchanged _ (Nat.lt_succ_self _) (by omega)]
      exact congrArg List.length
        ((h₁.unchanged _ (Nat.lt_succ_self _) (by omega)).trans (blockNew_blocks_self c.ctx))
    have hexit : (c.endLoop inner c₁ v).pos = 0 := by
      show ((c.endLoop inner c₁ v).ctx.blocks inner.ctx.blockCount).length = 0
      exact congrArg List.length ((h₆₇.unchanged inner.ctx.blockCount (Nat.lt_succ_self _)
        (by omega)).trans (blockNew_blocks_self _))
    have hstart : c.enterLoop.enterBlock.pos = 0 :=
      congrArg List.length (blockNew_blocks_self c.enterLoop.ctx)
    rw [hhead, scopes_of_blockInfo hinfo₀] at hcond
    rw [hexit, scopes_of_blockInfo hresumed.blockInfo, hresumed.regCount] at hrestcode
    rw [hstart] at hcode
    have hpos : (c₁.ctx.blocks c.ctx.blockCount).length = c₁.pos := by
      unfold IrCreator.pos
      rw [hblock₁]
    rw [hpos] at hcjump
    have hback' : body.branches = false → HasInst ir inner.block inner.pos inner.ctx.instCount
        .jump [some (.block c.ctx.blockCount)] := by
      intro hbr
      have hsame : inner.block = c.ctx.blockCount + 1 := hbody.block_eq hbr
      unfold IrCreator.pos
      rw [hsame]
      exact hback
    refine .whileDo (.inr ⟨_, hentry'⟩) hcond hcjump hcode hback' (fun hbr => ?_) hrestcode
    have hnew : c.ctx.blockCount + 2 ≤ inner.block := hbody.block_new hbr
    rw [(h₄₇.trans h₉ (T := fun b => b < c.ctx.blockCount + 2 ∨ b = inner.ctx.blockCount)
      fun b _ hT => by omega).unchanged _ hlast (by omega)]
    exact List.getElem?_eq_none (Nat.le_refl _)

/-- **The code of statements.** -/
theorem createStatements_created {ss : Statements} {c c' : IrCreator}
    (hb : c.block < c.ctx.blockCount) (h : createStatements c ss.toAst = some c') :
    StatementsCreated c ss c' := by
  induction ss generalizing c c' with
  | done =>
      cases h
      exact ⟨rfl, rfl, hb, fun _ => rfl, fun h => (Bool.false_ne_true h).elim, .refl _ _,
        fun _ => .done⟩
  | assign varName value rest ih =>
      obtain ⟨c₁, hassign, hrest⟩ := createStatements_cons.mp h
      obtain ⟨hsimple, hregs, hinfo, rId, hlookup, hcode⟩ :=
        createAssignment_created hb (createStatement_assign.mp hassign)
      have hrest' := ih (by rw [hsimple.block, hsimple.blockCount]; exact hb) hrest
      refine hrest'.cons_simple hsimple ?_ rfl fun hext hrestcode => ?_
      · rw [hregs]
        rfl
      · obtain ⟨v, k, j, i, hvalue, hinst, hpos⟩ := hcode hext
        rw [hpos, scopes_of_blockInfo hinfo, hregs] at hrestcode
        exact .assign hlookup hvalue hinst hrestcode
  | declare dataType op varName value rest ih =>
      obtain ⟨c₂, hdeclare, hrest⟩ := createStatements_cons.mp h
      obtain ⟨c₁, hreg, hassign⟩ := createStatement_declare.mp hdeclare
      obtain ⟨hblock, hctx, hcount, htail, hscopes, hself⟩ := createReg_scopes hreg
      have hb₁ : c₁.block < c₁.ctx.blockCount := by
        rw [hblock, hctx]
        exact hb
      obtain ⟨hsimple, hregs, hinfo, rId, hlookup, hcode⟩ := createAssignment_created hb₁ hassign
      have hrest' := ih (by rw [hsimple.block, hsimple.blockCount]; exact hb₁) hrest
      have hsimple' : SimpleCreated c c₂ :=
        ⟨hsimple.block.trans hblock, hsimple.blockInfo.trans htail,
          hsimple.blockCount.trans (congrArg Ir.blockCount hctx),
          by rw [← hctx, ← hblock]; exact hsimple.grows⟩
      refine hrest'.cons_simple hsimple' ?_ rfl fun hext hrestcode => ?_
      · rw [hregs, hcount, Statements.declarations, Nat.add_assoc]
      · obtain ⟨v, k, j, i, hvalue, hinst, hpos⟩ := hcode hext
        rw [hself] at hlookup
        cases hlookup
        have hpos₁ : c₁.pos = c.pos := by
          unfold IrCreator.pos
          rw [hblock, hctx]
        rw [hpos, scopes_of_blockInfo hinfo, hregs, hscopes, hcount] at hrestcode
        rw [hscopes, hblock, hpos₁] at hvalue
        rw [hblock] at hinst
        exact .declare hvalue hinst hrestcode
  | ifThen condition body rest ihbody ihrest =>
      obtain ⟨c₂, hif, hrest⟩ := createStatements_cons.mp h
      obtain ⟨c₁, v, inner, hv, hinner, rfl⟩ := createStatement_if.mp hif
      have hval := createValue_created hb hv
      have hbody := ihbody (Nat.lt_succ_self _) hinner
      exact createIf_created hb hval hbody (ihrest (Nat.lt_succ_self _) hrest)
  | whileDo condition body rest ihbody ihrest =>
      obtain ⟨c₂, hwhile, hrest⟩ := createStatements_cons.mp h
      obtain ⟨inner, c₁, v, hinner, hv, rfl⟩ := createStatement_while.mp hwhile
      have hbody := ihbody (Nat.lt_succ_self _) hinner
      have hval := createValue_created hbody.loopHead_lt hv
      exact createWhile_created hb hbody hval (ihrest hval.endLoop_lt hrest)
  | ret rest ih =>
      obtain ⟨c₁, hret, hrest⟩ := createStatements_cons.mp h
      rw [createStatement_return] at hret
      cases hret
      have hb₁ : (c.emit .ret .void []).block < (c.emit .ret .void []).ctx.blockCount := hb
      have hrest' := ih hb₁ hrest
      have hsimple : SimpleCreated c (c.emit .ret .void []) :=
        ⟨rfl, rfl, rfl, extends_emit _ _ _ _ _⟩
      refine hrest'.cons_simple hsimple rfl rfl fun hext hrestcode => ?_
      rw [pos_emit] at hrestcode
      exact .ret (hext.hasInst hb (Nat.lt_succ_self _) (hasInst_emit _ _ _ _ _)) hrestcode
  | other node hignored rest ih =>
      obtain ⟨c₁, hnode, hrest⟩ := createStatements_cons.mp h
      rw [createStatement_ignored c hignored] at hnode
      cases hnode
      exact (ih hb hrest).cons_simple ⟨rfl, rfl, rfl, .refl _ _⟩ rfl rfl
        fun _ hrestcode => .other hrestcode

/-! ## Creation succeeds -/

/-- All variables are declared as `int64`. -/
def Int64Only (blockInfo : List (Range → Option CreatorVariable)) : Prop :=
  ∀ m ∈ blockInfo, ∀ varName var, m varName = some var → var.dataType = .KW_INT64

theorem Int64Only.dataType_eq {blockInfo : List (Range → Option CreatorVariable)}
    (h : Int64Only blockInfo) {varName : Range} {var : CreatorVariable}
    (hvar : findReg blockInfo varName = some var) :
    var.dataType = .KW_INT64 := by
  induction blockInfo with
  | nil => cases hvar
  | cons m ms ih =>
      rw [findReg] at hvar
      split at hvar
      · rename_i var' hm
        cases hvar
        exact h m List.mem_cons_self varName _ hm
      · exact ih (fun m' hm' => h m' (List.mem_cons_of_mem _ hm')) hvar

/-- The data type of a value that exists stays. -/
theorem Extends.dataType {S : ℕ → Prop} {ir ir' : Ir} (h : Extends S ir ir') {v : Value}
    (hv : v.Below ir.instCount) : ir'.dataType v = ir.dataType v := by
  cases v with
  | inst i => exact congrArg Instruction.dataType (h.insts i hv)
  | const c => rfl
  | block b => rfl

theorem createValue_succeeds {e : Expression} {c : IrCreator} (hb : c.block < c.ctx.blockCount)
    (hint : Int64Only c.blockInfo) (h : e.InScope c.scopes) :
    ∃ c' v, createValue c e.toAst = some (c', v) ∧ c'.ctx.dataType v = .int64 := by
  induction e generalizing c with
  | number num => exact ⟨_, _, createValue_number c num, rfl⟩
  | var varName =>
      obtain ⟨rId, hlookup⟩ := Option.isSome_iff_exists.mp h
      rw [lookup_scopes] at hlookup
      obtain ⟨var, hvar, -⟩ := Option.map_eq_some_iff.mp hlookup
      refine ⟨_, _, createValue_variable.mpr ⟨var, hvar, rfl⟩, ?_⟩
      show ((c.ctx.emit _ _ _ _).insts c.ctx.instCount).dataType = .int64
      rw [emit_insts_self, hint.dataType_eq hvar]
      rfl
  | binary op left right ihl ihr =>
      obtain ⟨c₁, l, hl, hltype⟩ := ihl hb hint h.1
      have hleft := createValue_created hb hl
      have hb₁ : c₁.block < c₁.ctx.blockCount := by
        rw [hleft.block, hleft.blockCount]
        exact hb
      have hscope : right.InScope c₁.scopes := by
        rw [scopes_of_blockInfo hleft.blockInfo]
        exact h.2
      obtain ⟨c₂, v, hv, hvtype⟩ := ihr hb₁ (hleft.blockInfo ▸ hint) hscope
      have hltype₂ : c₂.ctx.dataType l = .int64 :=
        ((createValue_created hb₁ hv).grows.dataType hleft.below).trans hltype
      refine ⟨_, _, createValue_binary.mpr
        ⟨c₁, l, c₂, v, hl, hv, hltype₂.trans hvtype.symm, rfl⟩, ?_⟩
      show ((c₂.ctx.emit _ _ _ _).insts c₂.ctx.instCount).dataType = .int64
      rw [emit_insts_self, hltype₂]

theorem createAssignment_succeeds {c : IrCreator} {varName : Range} {e : Expression}
    (hb : c.block < c.ctx.blockCount) (hint : Int64Only c.blockInfo)
    (hvar : (c.scopes.lookup varName).isSome) (h : e.InScope c.scopes) :
    ∃ c', createAssignment c (.variable varName false) e.toAst = some c' := by
  obtain ⟨rId, hlookup⟩ := Option.isSome_iff_exists.mp hvar
  rw [lookup_scopes] at hlookup
  obtain ⟨var, hvar, -⟩ := Option.map_eq_some_iff.mp hlookup
  obtain ⟨c₁, v, hv, -⟩ := createValue_succeeds hb hint h
  exact ⟨_, createAssignment_eq_some.mpr ⟨var, c₁, v, hvar, hv, rfl⟩⟩

/-- A declaration of a name that the block does not have yet. -/
theorem createReg_succeeds {c : IrCreator} {varName : Range} (hinfo : c.blockInfo ≠ [])
    (hint : Int64Only c.blockInfo) (h : (c.scopes.head?.bind (· varName)) = none) :
    ∃ c₁, createReg c varName .KW_INT64 = some c₁ ∧ Int64Only c₁.blockInfo ∧
      c₁.blockInfo ≠ [] := by
  obtain ⟨m, ms, hms⟩ := List.exists_cons_of_ne_nil hinfo
  have hm : m varName = none := by
    unfold IrCreator.scopes at h
    rw [hms] at h
    exact Option.map_eq_none_iff.mp h
  refine ⟨_, createReg_eq_some.mpr ⟨m, ms, hms, hm, rfl⟩, ?_, List.cons_ne_nil _ _⟩
  intro m' hm' name var hvar
  rw [hms] at hint
  rcases List.mem_cons.mp hm' with rfl | hm'
  · by_cases hname : name = varName
    · subst hname
      rw [Function.update_self] at hvar
      cases hvar
      rfl
    · rw [Function.update_of_ne hname] at hvar
      exact hint m List.mem_cons_self name var hvar
  · exact hint m' (List.mem_cons_of_mem _ hm') name var hvar

theorem Int64Only.enterBlock {c : IrCreator} (h : Int64Only c.blockInfo) :
    Int64Only c.enterBlock.blockInfo := by
  intro m hm name var hvar
  rcases List.mem_cons.mp hm with rfl | hm
  · cases hvar
  · exact h m hm name var hvar

/-- **Creation succeeds** on well-scoped statements. -/
theorem createStatements_succeeds {ss : Statements} {c : IrCreator}
    (hb : c.block < c.ctx.blockCount) (hinfo : c.blockInfo ≠ []) (hint : Int64Only c.blockInfo)
    (h : ss.WellScoped c.scopes c.regCount) : ∃ c', createStatements c ss.toAst = some c' := by
  induction ss generalizing c with
  | done => exact ⟨c, rfl⟩
  | assign varName value rest ih =>
      obtain ⟨hvar, hvalue, hrest⟩ := h
      obtain ⟨c₁, hassign⟩ := createAssignment_succeeds hb hint hvar hvalue
      obtain ⟨hsimple, hregs, hinfo₁, -⟩ := createAssignment_created hb hassign
      obtain ⟨c', hc'⟩ := ih (c := c₁) (by rw [hsimple.block, hsimple.blockCount]; exact hb)
        (hinfo₁ ▸ hinfo) (hinfo₁ ▸ hint) (by rwa [scopes_of_blockInfo hinfo₁, hregs])
      exact ⟨c', createStatements_cons.mpr ⟨c₁, createStatement_assign.mpr hassign, hc'⟩⟩
  | declare dataType op varName value rest ih =>
      obtain ⟨⟨rfl, rfl⟩, hfree, hvalue, hmention, hrest⟩ := h
      obtain ⟨c₁, hreg, hint₁, hinfo₁⟩ := createReg_succeeds hinfo hint hfree
      obtain ⟨hblock, hctx, hcount, -, hscopes, hself⟩ := createReg_scopes hreg
      have hb₁ : c₁.block < c₁.ctx.blockCount := by
        rw [hblock, hctx]
        exact hb
      have hvar₁ : (c₁.scopes.lookup varName).isSome := by
        rw [hself]
        rfl
      have hvalue₁ : value.InScope c₁.scopes := by
        rw [hscopes]
        exact inScope_declare hmention hvalue
      obtain ⟨c₂, hassign⟩ := createAssignment_succeeds hb₁ hint₁ hvar₁ hvalue₁
      obtain ⟨hsimple, hregs, hinfo₂, -⟩ := createAssignment_created hb₁ hassign
      obtain ⟨c', hc'⟩ := ih (c := c₂) (by rw [hsimple.block, hsimple.blockCount]; exact hb₁)
        (hinfo₂ ▸ hinfo₁) (hinfo₂ ▸ hint₁)
        (by rwa [scopes_of_blockInfo hinfo₂, hregs, hscopes, hcount])
      exact ⟨c', createStatements_cons.mpr
        ⟨c₂, createStatement_declare.mpr ⟨c₁, hreg, hassign⟩, hc'⟩⟩
  | ifThen condition body rest ihbody ihrest =>
      obtain ⟨hcond, hbody, hrest⟩ := h
      obtain ⟨c₁, v, hv, -⟩ := createValue_succeeds hb hint hcond
      have hval := createValue_created hb hv
      have hscopes := scopes_of_blockInfo hval.blockInfo
      obtain ⟨inner, hinner⟩ := ihbody (c := c₁.enterBlock) (Nat.lt_succ_self _)
        (List.cons_ne_nil _ _) (Int64Only.enterBlock (hval.blockInfo ▸ hint))
        (by rw [scopes_enterBlock, hscopes, show c₁.enterBlock.regCount = _ from hval.regCount]
            exact hbody)
      have hcreated := createStatements_created (c := c₁.enterBlock) (Nat.lt_succ_self _) hinner
      have hresumed := resumed_endIf v hval.blockInfo hval.regCount hcreated
      obtain ⟨c', hc'⟩ := ihrest hresumed.block_lt (hresumed.blockInfo ▸ hinfo)
        (hresumed.blockInfo ▸ hint)
        (by rwa [scopes_of_blockInfo hresumed.blockInfo, hresumed.regCount])
      exact ⟨c', createStatements_cons.mpr
        ⟨_, createStatement_if.mpr ⟨c₁, v, inner, hv, hinner, rfl⟩, hc'⟩⟩
  | whileDo condition body rest ihbody ihrest =>
      obtain ⟨hcond, hbody, hrest⟩ := h
      obtain ⟨inner, hinner⟩ := ihbody (c := c.enterLoop.enterBlock) (Nat.lt_succ_self _)
        (List.cons_ne_nil _ _) (Int64Only.enterBlock (c := c.enterLoop) hint) hbody
      have hcreated := createStatements_created (c := c.enterLoop.enterBlock)
        (Nat.lt_succ_self _) hinner
      have hinfo₀ : (c.loopHead inner).blockInfo = c.blockInfo := hcreated.blockInfo
      have hhead := hcreated.loopHead_lt
      obtain ⟨c₁, v, hv, -⟩ := createValue_succeeds hhead (hinfo₀ ▸ hint)
        (by rw [scopes_of_blockInfo hinfo₀]; exact hcond)
      have hval := createValue_created hhead hv
      have hresumed := resumed_endLoop v hcreated hval.blockInfo hval.regCount hval.blockCount
      obtain ⟨c', hc'⟩ := ihrest hresumed.block_lt (hresumed.blockInfo ▸ hinfo)
        (hresumed.blockInfo ▸ hint)
        (by rwa [scopes_of_blockInfo hresumed.blockInfo, hresumed.regCount])
      exact ⟨c', createStatements_cons.mpr
        ⟨_, createStatement_while.mpr ⟨inner, c₁, v, hinner, hv, rfl⟩, hc'⟩⟩
  | ret rest ih =>
      obtain ⟨c', hc'⟩ := ih (c := c.emit .ret .void []) hb hinfo hint h
      exact ⟨c', createStatements_cons.mpr ⟨_, createStatement_return c, hc'⟩⟩
  | other node hignored rest ih => exact absurd h id

/-- The scopes of the body of a function. -/
theorem scopes_body {creator : IrCreator} (hinfo : creator.blockInfo = []) :
    creator.enterBlock.scopes = [fun _ => none] := by
  unfold IrCreator.scopes IrCreator.enterBlock
  rw [hinfo]
  rfl

theorem createBody_succeeds {creator : IrCreator} (hinfo : creator.blockInfo = [])
    {body : Statements} (hscoped : body.WellScoped [fun _ => none] creator.regCount) :
    ∃ inner, createStatements creator.enterBlock body.toAst = some inner :=
  createStatements_succeeds (Nat.lt_succ_self _) (List.cons_ne_nil _ _)
    (Int64Only.enterBlock (hinfo ▸ fun _ hm => absurd hm List.not_mem_nil))
    (by rw [scopes_body hinfo]; exact hscoped)
