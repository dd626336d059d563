/-
# Code that implements structured programs

`ExpressionCode` and `StatementsCode` say where in the blocks of an `Ir` the code of an
expression or of statements lies; they follow the syntax.  `StatementsCode.simulates` :
executing this code does what the interpreter does that stops when it has completed the
body of a `while` with branches.  There the code has no jump back: the last block of such
a body just ends.
-/
import MCompiler.IrExecution

/-! ## Layout -/

/-- At position `k` of the block `b` is the instruction `i`, of this type and with these
operands. -/
structure HasInst (ir : Ir) (b k i : ℕ) (type : InstType) (uses : List (Option Value)) :
    Prop where
  pos : (ir.blocks b)[k]? = some i
  type : (ir.insts i).type = type
  uses : (ir.insts i).uses = uses

/-- The code of an expression lies in the block `b` between two positions, its instructions
have the numbers from `i` to `i'`, and its value is `v`. -/
inductive ExpressionCode (ir : Ir) (scopes : Scopes) (b : ℕ) :
    ℕ → ℕ → Expression → Value → ℕ → ℕ → Prop
  | number {k i c : ℕ} {num : Int64} : ir.consts c = num →
      ExpressionCode ir scopes b k i (.number num) (.const c) k i
  | var {k i rId : ℕ} {varName : Range} : scopes.lookup varName = some rId →
      HasInst ir b k i (.loadVar rId) [] →
      ExpressionCode ir scopes b k i (.var varName) (.inst i) (k + 1) (i + 1)
  | binary {k i k₁ i₁ k₂ i₂ : ℕ} {op : BinaryOps} {left right : Expression} {l r : Value} :
      ExpressionCode ir scopes b k i left l k₁ i₁ →
      ExpressionCode ir scopes b k₁ i₁ right r k₂ i₂ →
      HasInst ir b k₂ i₂ (.binary op) [some l, some r] →
      ExpressionCode ir scopes b k i (.binary op left right) (.inst i₂) (k₂ + 1) (i₂ + 1)

/-- The code of statements leads from a position of a block to a position of a block.  A
`while` is entered at its head or by a jump to it.  The last block of its body jumps back only
if the body does not branch; else it ends. -/
inductive StatementsCode (ir : Ir) : Scopes → ℕ → Statements → ℕ → ℕ → ℕ → ℕ → Prop
  | done {scopes : Scopes} {n b k : ℕ} : StatementsCode ir scopes n .done b k b k
  | assign {scopes : Scopes} {n b k i k₁ i₁ j rId b' k' : ℕ} {varName : Range}
      {value : Expression} {v : Value} {rest : Statements} :
      scopes.lookup varName = some rId →
      ExpressionCode ir scopes b k i value v k₁ i₁ →
      HasInst ir b k₁ j (.assignVar rId) [some v] →
      StatementsCode ir scopes n rest b (k₁ + 1) b' k' →
      StatementsCode ir scopes n (.assign varName value rest) b k b' k'
  | declare {scopes : Scopes} {n b k i k₁ i₁ j b' k' : ℕ} {dataType op : TokenType}
      {varName : Range} {value : Expression} {v : Value} {rest : Statements} :
      ExpressionCode ir (scopes.declare varName n) b k i value v k₁ i₁ →
      HasInst ir b k₁ j (.assignVar n) [some v] →
      StatementsCode ir (scopes.declare varName n) (n + 1) rest b (k₁ + 1) b' k' →
      StatementsCode ir scopes n (.declare dataType op varName value rest) b k b' k'
  | ifThen {scopes : Scopes} {n b k i k₁ i₁ j j' start after last m b' k' : ℕ}
      {condition : Expression} {v : Value} {body rest : Statements} :
      ExpressionCode ir scopes b k i condition v k₁ i₁ →
      HasInst ir b k₁ j .jumpCond [some (.block start), some (.block after), some v] →
      StatementsCode ir scopes.nest n body start 0 last m →
      HasInst ir last m j' .jump [some (.block after)] →
      StatementsCode ir scopes (n + body.declarations) rest after 0 b' k' →
      StatementsCode ir scopes n (.ifThen condition body rest) b k b' k'
  | whileDo {scopes : Scopes} {n b k head i k₁ i₁ j j' start exit last m b' k' : ℕ}
      {condition : Expression} {v : Value} {body rest : Statements} :
      (b = head ∧ k = 0 ∨ ∃ j₀, HasInst ir b k j₀ .jump [some (.block head)]) →
      ExpressionCode ir scopes head 0 i condition v k₁ i₁ →
      HasInst ir head k₁ j .jumpCond [some (.block start), some (.block exit), some v] →
      StatementsCode ir scopes.nest n body start 0 last m →
      (body.branches = false → HasInst ir last m j' .jump [some (.block head)]) →
      (body.branches = true → (ir.blocks last)[m]? = none) →
      StatementsCode ir scopes (n + body.declarations) rest exit 0 b' k' →
      StatementsCode ir scopes n (.whileDo condition body rest) b k b' k'
  | ret {scopes : Scopes} {n b k j b' k' : ℕ} {rest : Statements} :
      HasInst ir b k j .ret [] →
      StatementsCode ir scopes n rest b (k + 1) b' k' →
      StatementsCode ir scopes n (.ret rest) b k b' k'
  | other {scopes : Scopes} {n b k b' k' : ℕ} {node : AstNode} {hignored : node.isIgnored = true}
      {rest : Statements} :
      StatementsCode ir scopes n rest b k b' k' →
      StatementsCode ir scopes n (.other node hignored rest) b k b' k'

/-! ## Expressions -/

/-- The value is a constant or the result of an instruction with a number below `i`. -/
def Value.Below : Value → ℕ → Prop
  | .inst j, i => j < i
  | .const _, _ => True
  | .block _, _ => False

section Simulation

variable {V : Type} {sem : ValueSemantics V} {ir : Ir}

/-- The results of later instructions do not matter to a value. -/
theorem irOperand_congr {v : Value} {i : ℕ} (hv : v.Below i) {results results' : ℕ → V}
    (h : ∀ j < i, results' j = results j) :
    irOperand sem ir results' v = irOperand sem ir results v := by
  cases v with
  | inst j => exact congrArg some (h j hv)
  | const c => rfl
  | block b => rfl

/-- **Expressions.**  Their code leads to its end, with their value, and changes only the
results of its own instructions. -/
theorem ExpressionCode.steps {scopes : Scopes} {b k i k' i' : ℕ} {e : Expression} {v : Value}
    (h : ExpressionCode ir scopes b k i e v k' i') (sem : ValueSemantics V) (st : Execution V) :
    i ≤ i' ∧ v.Below i' ∧ ∀ results, ∃ m results',
      IrSteps sem ir ⟨b, k, results, st⟩ m ⟨b, k', results', st⟩ ∧
      irOperand sem ir results' v = some (e.eval sem scopes st.vars) ∧
      ∀ j < i, results' j = results j := by
  induction h with
  | @number k i c num hc =>
      refine ⟨Nat.le_refl i, trivial, fun results => ⟨0, results, .refl _, ?_, fun j _ => rfl⟩⟩
      rw [irOperand, hc]
      rfl
  | @var k i rId varName hlookup hinst =>
      refine ⟨Nat.le_succ i, Nat.lt_succ_self i, fun results =>
        ⟨1, Function.update results i (st.vars rId), .one ?_, ?_, ?_⟩⟩
      · unfold irStep
        simp only [hinst.pos, hinst.type, hinst.uses]
      · rw [irOperand, Function.update_self, Expression.eval, hlookup]
        rfl
      · intro j hj
        exact Function.update_of_ne (by omega) _ _
  | @binary k i k₁ i₁ k₂ i₂ op left right l r _ _ hinst ihl ihr =>
      obtain ⟨hlei, hlbelow, hlsteps⟩ := ihl
      obtain ⟨hrei, hrbelow, hrsteps⟩ := ihr
      refine ⟨by omega, Nat.lt_succ_self i₂, fun results => ?_⟩
      obtain ⟨m₁, results₁, hsteps₁, hval₁, hframe₁⟩ := hlsteps results
      obtain ⟨m₂, results₂, hsteps₂, hval₂, hframe₂⟩ := hrsteps results₁
      -- the left value survives the code of the right operand
      rw [← irOperand_congr hlbelow hframe₂] at hval₁
      refine ⟨_, Function.update results₂ i₂ (sem.binary op (left.eval sem scopes st.vars)
        (right.eval sem scopes st.vars)), (hsteps₁.trans hsteps₂).trans (.one ?_), ?_, ?_⟩
      · unfold irStep
        simp only [hinst.pos, hinst.type, hinst.uses, hval₁, hval₂]
      · rw [irOperand, Function.update_self, Expression.eval]
      · intro j hj
        rw [Function.update_of_ne (by omega), hframe₂ j (by omega), hframe₁ j hj]

/-! ## Steps of statements -/

theorem HasInst.step_assign {b k j rId : ℕ} {v : Value}
    (h : HasInst ir b k j (.assignVar rId) [some v]) {results : ℕ → V} {st : Execution V} {x : V}
    (hv : irOperand sem ir results v = some x) :
    irStep sem ir ⟨b, k, results, st⟩ = .next ⟨b, k + 1, results, st.assign rId x⟩ := by
  unfold irStep
  simp only [h.pos, h.type, h.uses, hv]

theorem HasInst.step_jump {b k j target : ℕ} (h : HasInst ir b k j .jump [some (.block target)])
    (results : ℕ → V) (st : Execution V) :
    irStep sem ir ⟨b, k, results, st⟩ = .next ⟨target, 0, results, st⟩ := by
  unfold irStep
  simp only [h.pos, h.type, h.uses]

theorem HasInst.step_jumpCond {b k j x y : ℕ} {v : Value}
    (h : HasInst ir b k j .jumpCond [some (.block x), some (.block y), some v])
    {results : ℕ → V} (st : Execution V) {cond : V}
    (hv : irOperand sem ir results v = some cond) :
    irStep sem ir ⟨b, k, results, st⟩ =
      .next ⟨if sem.isTrue cond then x else y, 0, results, st⟩ := by
  unfold irStep
  simp only [h.pos, h.type, h.uses, hv]

theorem HasInst.step_ret {b k j : ℕ} (h : HasInst ir b k j .ret []) (results : ℕ → V)
    (st : Execution V) : irStep sem ir ⟨b, k, results, st⟩ = .ended := by
  unfold irStep
  simp only [h.pos, h.type, h.uses]

/-- A block without further instructions ends the execution. -/
theorem irStep_end {b k : ℕ} (h : (ir.blocks b)[k]? = none) (results : ℕ → V)
    (st : Execution V) : irStep sem ir ⟨b, k, results, st⟩ = .ended := by
  unfold irStep
  simp only [h]

/-! ## Statements -/

/-- The execution from `c` does what the interpreter did in `fuel` steps: statements that
were completed lead to the position `k'` of the block `b'`, and an interpretation that was
cut corresponds to at least as many steps. -/
def Simulates (sem : ValueSemantics V) (ir : Ir) (c : IrConfig V) (fuel : ℕ)
    (r : Outcome × Execution V) (b' k' : ℕ) : Prop :=
  match r.1 with
  | .normal => ∃ m results, IrSteps sem ir c m ⟨b', k', results, r.2⟩
  | .cut => ∃ m c', fuel ≤ m ∧ IrSteps sem ir c m c' ∧ c'.state = r.2
  | _ => ∃ m c', IrSteps sem ir c m c' ∧ irStep sem ir c' = .ended ∧ c'.state = r.2

/-- Some steps before. -/
theorem Simulates.prepend {c c₁ : IrConfig V} {m fuel fuel' b' k' : ℕ}
    {r : Outcome × Execution V} (h : IrSteps sem ir c m c₁) (hfuel : fuel' ≤ m + fuel)
    (hsim : Simulates sem ir c₁ fuel r b' k') : Simulates sem ir c fuel' r b' k' := by
  obtain ⟨o, st⟩ := r
  cases o with
  | normal =>
      obtain ⟨m', results, hsteps⟩ := hsim
      exact ⟨m + m', results, h.trans hsteps⟩
  | cut =>
      obtain ⟨m', c', hm, hsteps, hst⟩ := hsim
      exact ⟨m + m', c', by omega, h.trans hsteps, hst⟩
  | returned =>
      obtain ⟨m', c', hsteps, hend, hst⟩ := hsim
      exact ⟨m + m', c', h.trans hsteps, hend, hst⟩
  | stopped =>
      obtain ⟨m', c', hsteps, hend, hst⟩ := hsim
      exact ⟨m + m', c', h.trans hsteps, hend, hst⟩

/-- A body that is not completed does not get to what follows it. -/
theorem Simulates.of_not_normal {c : IrConfig V} {fuel b k b' k' : ℕ} {o : Outcome}
    {st : Execution V} (ho : o ≠ .normal) (hsim : Simulates sem ir c fuel (o, st) b k) :
    Simulates sem ir c fuel (o, st) b' k' := by
  cases o with
  | normal => exact absurd rfl ho
  | cut => exact hsim
  | returned => exact hsim
  | stopped => exact hsim

/-- What the induction on `fuel` gives for all statements. -/
def SimulatesAll (sem : ValueSemantics V) (ir : Ir) (fuel : ℕ) : Prop :=
  ∀ {scopes : Scopes} {n : ℕ} {ss : Statements} {b k b' k' : ℕ},
    StatementsCode ir scopes n ss b k b' k' → ss.WellScoped scopes n →
      ∀ (results : ℕ → V) (st : Execution V), Simulates sem ir ⟨b, k, results, st⟩ fuel
        (ss.exec sem Statements.branches fuel scopes n st) b' k'

/-- The `while` from its head. -/
theorem simulates_whileHead {fuel : ℕ} (ih : SimulatesAll sem ir fuel) {scopes : Scopes}
    {n head i k₁ i₁ j j' start exit last m b' k' : ℕ} {condition : Expression} {v : Value}
    {body rest : Statements} (hcond : ExpressionCode ir scopes head 0 i condition v k₁ i₁)
    (hjump : HasInst ir head k₁ j .jumpCond [some (.block start), some (.block exit), some v])
    (hbody : StatementsCode ir scopes.nest n body start 0 last m)
    (hback : body.branches = false → HasInst ir last m j' .jump [some (.block head)])
    (hend : body.branches = true → (ir.blocks last)[m]? = none)
    (hrest : StatementsCode ir scopes (n + body.declarations) rest exit 0 b' k')
    (hscoped : (Statements.whileDo condition body rest).WellScoped scopes n) (results : ℕ → V)
    (st : Execution V) :
    Simulates sem ir ⟨head, 0, results, st⟩ (fuel + 1)
      ((Statements.whileDo condition body rest).exec sem Statements.branches (fuel + 1) scopes n st)
      b' k' := by
  obtain ⟨m₀, results₀, hsteps, hval, -⟩ := (hcond.steps sem st).2.2 results
  have hbranch := hsteps.trans (.one (hjump.step_jumpCond st hval))
  rw [Statements.exec]
  split
  · rename_i htrue
    rw [if_pos htrue] at hbranch
    have hsim := ih hbody hscoped.2.1 results₀ st
    rcases hexec : body.exec sem Statements.branches fuel scopes.nest n st with ⟨o, st₁⟩
    rw [hexec] at hsim
    cases o with
    | normal =>
        obtain ⟨m₁, results₁, hsteps₁⟩ := hsim
        show Simulates sem ir _ _ (if body.branches then _ else _) b' k'
        split
        · -- there is no jump back: the execution ends
          rename_i hbr
          exact ⟨_, _, hbranch.trans hsteps₁, irStep_end (hend hbr) results₁ st₁, rfl⟩
        · rename_i hbr
          have hback' := hback (by simpa using hbr)
          have hloop := ih
            (.whileDo (.inl ⟨rfl, rfl⟩) hcond hjump hbody hback hend hrest) hscoped results₁ st₁
          exact hloop.prepend
            ((hbranch.trans hsteps₁).trans (.one (hback'.step_jump results₁ st₁))) (by omega)
    | cut => exact (hsim.of_not_normal (by simp)).prepend hbranch (by omega)
    | returned => exact (hsim.of_not_normal (by simp)).prepend hbranch (by omega)
    | stopped => exact (hsim.of_not_normal (by simp)).prepend hbranch (by omega)
  · rename_i hfalse
    rw [if_neg hfalse] at hbranch
    exact (ih hrest hscoped.2.2 results₀ st).prepend hbranch (by omega)

/-- **Statements.**  Their code does what the interpreter does that stops after the body
of a `while` with branches. -/
theorem StatementsCode.simulates (fuel : ℕ) : SimulatesAll sem ir fuel := by
  induction fuel with
  | zero =>
      intro scopes n ss b k b' k' _ _ results st
      exact ⟨0, _, Nat.le_refl 0, .refl _, rfl⟩
  | succ fuel ih =>
      intro scopes n ss b k b' k' h hscoped results st
      cases h with
      | done => exact ⟨0, results, .refl _⟩
      | assign hlookup hcode hinst hrest =>
          obtain ⟨m, results', hsteps, hval, -⟩ := (hcode.steps sem st).2.2 results
          rw [Statements.exec, hlookup]
          exact (ih hrest hscoped.2.2 results' _).prepend
            (hsteps.trans (.one (hinst.step_assign hval))) (by omega)
      | declare hcode hinst hrest =>
          obtain ⟨m, results', hsteps, hval, -⟩ := (hcode.steps sem st).2.2 results
          obtain ⟨-, -, -, hmention, hscoped'⟩ := hscoped
          rw [eval_declare sem hmention] at hval
          rw [Statements.exec]
          exact (ih hrest hscoped' results' _).prepend
            (hsteps.trans (.one (hinst.step_assign hval))) (by omega)
      | @ifThen _ _ _ _ _ _ _ _ _ _ _ _ _ _ _ condition v body rest hcode hinst hbody hjump
          hrest =>
          obtain ⟨m, results', hsteps, hval, -⟩ := (hcode.steps sem st).2.2 results
          have hbranch := hsteps.trans (.one (hinst.step_jumpCond st hval))
          rw [Statements.exec]
          split
          · rename_i htrue
            rw [if_pos htrue] at hbranch
            have hsim := ih hbody hscoped.2.1 results' st
            rcases hexec : body.exec sem Statements.branches fuel scopes.nest n st with ⟨o, st₁⟩
            rw [hexec] at hsim
            cases o with
            | normal =>
                obtain ⟨m₁, results₁, hsteps₁⟩ := hsim
                exact (ih hrest hscoped.2.2 results₁ st₁).prepend
                  ((hbranch.trans hsteps₁).trans (.one (hjump.step_jump results₁ st₁)))
                  (by omega)
            | cut => exact (hsim.of_not_normal (by simp)).prepend hbranch (by omega)
            | returned => exact (hsim.of_not_normal (by simp)).prepend hbranch (by omega)
            | stopped => exact (hsim.of_not_normal (by simp)).prepend hbranch (by omega)
          · rename_i hfalse
            rw [if_neg hfalse] at hbranch
            exact (ih hrest hscoped.2.2 results' st).prepend hbranch (by omega)
      | whileDo hentry hcode hjump hbody hback hend hrest =>
          have hhead := simulates_whileHead ih hcode hjump hbody hback hend hrest hscoped
            results st
          obtain ⟨rfl, rfl⟩ | ⟨j₀, hinst⟩ := hentry
          · exact hhead
          · exact hhead.prepend (.one (hinst.step_jump results st)) (by omega)
      | ret hinst hrest => exact ⟨0, _, .refl _, hinst.step_ret results st, rfl⟩
      | other hrest => exact absurd hscoped id

end Simulation
