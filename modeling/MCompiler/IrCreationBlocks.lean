/-
# The shape of the blocks that IR creation makes

`ir.h` : instructions that can jump can only be last in a block.  A block is `Unended`,
`Ended` by its last instruction, or `Broken` ; appending an instruction moves it along this
order, and a broken block stays broken.  `createStatements_ending` follows the blocks
through the statements, and `createBlock_wellFormed_iff` says for which functions none is
broken.
-/
import MCompiler.IrCreationCode

/-! ## Blocks -/

/-- The instructions that can jump, or leave the function. -/
def InstType.isTerminator : InstType → Bool
  | .jump | .jumpCond | .ret => true
  | _ => false

/-- The instruction exists and cannot jump. -/
def Ir.Straight (ir : Ir) (i : ℕ) : Prop :=
  i < ir.instCount ∧ (ir.insts i).type.isTerminator = false

/-- The instruction exists and can jump. -/
def Ir.Jumps (ir : Ir) (i : ℕ) : Prop :=
  i < ir.instCount ∧ (ir.insts i).type.isTerminator = true

/-- No instruction of the block can jump. -/
def Unended (ir : Ir) (b : ℕ) : Prop := ∀ i ∈ ir.blocks b, ir.Straight i

/-- The last instruction of the block can jump, and no other. -/
def Ended (ir : Ir) (b : ℕ) : Prop :=
  ∃ pre i, ir.blocks b = pre ++ [i] ∧ (∀ j ∈ pre, ir.Straight j) ∧ ir.Jumps i

/-- An instruction that can jump stands before the end of the block. -/
def Broken (ir : Ir) (b : ℕ) : Prop :=
  ∃ pre i post, ir.blocks b = pre ++ i :: post ∧ post ≠ [] ∧ ir.Jumps i

namespace Extends

variable {S : ℕ → Prop} {ir ir' : Ir} {b : ℕ}

theorem straight (h : Extends S ir ir') {i : ℕ} (hi : ir.Straight i) : ir'.Straight i :=
  ⟨Nat.lt_of_lt_of_le hi.1 h.instCount, by rw [h.insts i hi.1]; exact hi.2⟩

theorem jumps (h : Extends S ir ir') {i : ℕ} (hi : ir.Jumps i) : ir'.Jumps i :=
  ⟨Nat.lt_of_lt_of_le hi.1 h.instCount, by rw [h.insts i hi.1]; exact hi.2⟩

theorem unended (h : Extends S ir ir') (hb : b < ir.blockCount) (hS : ¬ S b)
    (hopen : Unended ir b) : Unended ir' b := by
  intro i hi
  rw [h.unchanged b hb hS] at hi
  exact h.straight (hopen i hi)

theorem ended (h : Extends S ir ir') (hb : b < ir.blockCount) (hS : ¬ S b)
    (hended : Ended ir b) : Ended ir' b := by
  obtain ⟨pre, i, heq, hpre, hi⟩ := hended
  exact ⟨pre, i, (h.unchanged b hb hS).trans heq, fun j hj => h.straight (hpre j hj), h.jumps hi⟩

theorem broken (h : Extends S ir ir') (hb : b < ir.blockCount) (hbroken : Broken ir b) :
    Broken ir' b := by
  obtain ⟨pre, i, post, heq, hpost, hi⟩ := hbroken
  obtain ⟨more, hmore⟩ := h.blocks b hb
  refine ⟨pre, i, post ++ more, ?_, ?_, h.jumps hi⟩
  · rw [← hmore, heq, List.append_assoc, List.cons_append]
  · exact List.append_ne_nil_of_left_ne_nil hpost more

end Extends

/-! ## Appending an instruction -/

section Emit

variable {ir : Ir} {b : ℕ} {type : InstType} (dataType : DataType) (uses : List (Option Value))

theorem unended_emit (h : Unended ir b) (ht : type.isTerminator = false) :
    Unended (ir.emit b type dataType uses) b := by
  intro i hi
  rw [emit_blocks_self] at hi
  rcases List.mem_append.mp hi with hi | hi
  · exact (extends_emit ir b type dataType uses).straight (h i hi)
  · obtain rfl := List.mem_singleton.mp hi
    refine ⟨Nat.lt_succ_self _, ?_⟩
    rw [emit_insts_self]
    exact ht

theorem ended_emit (h : Unended ir b) (ht : type.isTerminator = true) :
    Ended (ir.emit b type dataType uses) b := by
  refine ⟨ir.blocks b, ir.instCount, emit_blocks_self ir b type dataType uses,
    fun j hj => (extends_emit ir b type dataType uses).straight (h j hj),
    Nat.lt_succ_self _, ?_⟩
  rw [emit_insts_self]
  exact ht

theorem broken_emit (h : Ended ir b) : Broken (ir.emit b type dataType uses) b := by
  obtain ⟨pre, i, heq, -, hi⟩ := h
  refine ⟨pre, i, [ir.instCount], ?_, List.cons_ne_nil _ _,
    (extends_emit ir b type dataType uses).jumps hi⟩
  rw [emit_blocks_self, heq, List.append_assoc]
  rfl

end Emit

theorem unended_blockNew (ir : Ir) : Unended (blockNew ir).1 ir.blockCount := by
  intro i hi
  rw [blockNew_blocks_self] at hi
  exact absurd hi List.not_mem_nil

/-- The code of an expression does not jump. -/
theorem createValue_unended {e : Expression} {c c' : IrCreator} {v : Value}
    (hb : c.block < c.ctx.blockCount) (h : createValue c e.toAst = some (c', v))
    (hopen : Unended c.ctx c.block) : Unended c'.ctx c'.block := by
  induction e generalizing c c' v with
  | number num =>
      rw [Expression.toAst, createValue_number] at h
      cases h
      exact (extends_irConstantValue c.ctx num).unended hb id hopen
  | var varName =>
      obtain ⟨var, -, hr⟩ := createValue_variable.mp h
      cases hr
      exact unended_emit _ _ hopen rfl
  | binary op left right ihl ihr =>
      obtain ⟨c₁, l, c₂, x, hl, hx, -, hr⟩ := createValue_binary.mp h
      cases hr
      have hleft := createValue_created hb hl
      have hb₁ : c₁.block < c₁.ctx.blockCount := by
        rw [hleft.block, hleft.blockCount]
        exact hb
      exact unended_emit _ _ (ihr hb₁ hx (ihl hb hl hopen)) rfl

theorem createAssignment_unended {c c₁ : IrCreator} {varName : Range} {e : Expression}
    (hb : c.block < c.ctx.blockCount)
    (h : createAssignment c (.variable varName false) e.toAst = some c₁)
    (hopen : Unended c.ctx c.block) : Unended c₁.ctx c₁.block := by
  obtain ⟨var, c₀, v, -, hv, rfl⟩ := createAssignment_eq_some.mp h
  exact unended_emit _ _ (createValue_unended hb hv hopen) rfl

/-! ## The statements -/

/-- How statements leave the block that they end in, or that they break a block. -/
inductive Ending where
  | unended | ended | broken
  deriving DecidableEq

/-- The statements add no instruction. -/
def Statements.silent : Statements → Bool
  | .done => true
  | .other _ _ rest => rest.silent
  | _ => false

/-- A `return` has to be the last statement, also after the jump that follows a body; and
the body of a `while` may not branch, as the jump back goes into its first block. -/
def Statements.ending : Statements → Ending
  | .done => .unended
  | .assign _ _ rest => rest.ending
  | .declare _ _ _ _ rest => rest.ending
  | .ifThen _ body rest => if body.ending = .unended then rest.ending else .broken
  | .whileDo _ body rest =>
      if body.branches = false ∧ body.ending = .unended then rest.ending else .broken
  | .ret rest => if rest.silent then .ended else .broken
  | .other _ _ rest => rest.ending

/-- The blocks that statements may extend: the current one, and new ones. -/
def IrCreator.Touches (c c' : IrCreator) (b : ℕ) : Prop :=
  (b = c.block ∨ c.ctx.blockCount ≤ b) ∧ b < c'.ctx.blockCount

/-- What has become of the blocks. -/
def BlocksEnding (c c' : IrCreator) : Ending → Prop
  | .unended => (∀ b, c.Touches c' b → b ≠ c'.block → Ended c'.ctx b) ∧ Unended c'.ctx c'.block
  | .ended => (∀ b, c.Touches c' b → b ≠ c'.block → Ended c'.ctx b) ∧ Ended c'.ctx c'.block
  | .broken => ∃ b, c.Touches c' b ∧ Broken c'.ctx b

/-- After a statement that does not branch. -/
theorem BlocksEnding.cons_simple {c c₁ c' : IrCreator} {ending : Ending}
    (hfirst : SimpleCreated c c₁) (h : BlocksEnding c₁ c' ending) : BlocksEnding c c' ending := by
  have htouches : c.Touches c' = c₁.Touches c' := by
    funext b
    unfold IrCreator.Touches
    rw [hfirst.block, hfirst.blockCount]
  cases ending <;> (unfold BlocksEnding at h ⊢; rw [htouches]; exact h)

/-- After statements that have left a broken block. -/
theorem BlocksEnding.of_broken {c c₁ c' : IrCreator} {S : ℕ → Prop} {b : ℕ}
    (hb : c.Touches c₁ b) (hbroken : Broken c₁.ctx b) (h : Extends S c₁.ctx c'.ctx) :
    BlocksEnding c c' .broken :=
  ⟨b, ⟨hb.1, Nat.lt_of_lt_of_le hb.2 h.blockCount⟩, h.broken hb.2 hbroken⟩

/-- After a statement that branches and has ended all blocks that it touches but the new
current one. -/
theorem BlocksEnding.cons_branch {c c₁ c' : IrCreator} {rest : Statements} {ending : Ending}
    (hnew : c.ctx.blockCount ≤ c₁.block) (hcount : c.ctx.blockCount ≤ c₁.ctx.blockCount)
    (hended : ∀ b, c.Touches c₁ b → b ≠ c₁.block → Ended c₁.ctx b)
    (hrest : StatementsCreated c₁ rest c') (h : BlocksEnding c₁ c' ending) :
    BlocksEnding c c' ending := by
  have hcount' := hrest.grows.blockCount
  have hcur := hrest.block_cases
  have hcases : ∀ b, c.Touches c' b → c₁.Touches c' b ∨ b < c₁.ctx.blockCount ∧ b ≠ c₁.block ∧
      b ≠ c'.block ∧ c.Touches c₁ b := by
    rintro b ⟨hb₁, hb₂⟩
    unfold IrCreator.Touches
    have := hrest.block_lt
    by_cases hlt : b < c₁.ctx.blockCount
    · by_cases heq : b = c₁.block
      · exact .inl ⟨.inl heq, hb₂⟩
      · refine .inr ⟨hlt, heq, ?_, hb₁, hlt⟩
        rcases hcur with hcur | hcur
        · exact fun h => heq (h.trans hcur)
        · omega
    · exact .inl ⟨.inr (Nat.le_of_not_lt hlt), hb₂⟩
  have hold : ∀ b, c.Touches c' b → (c₁.Touches c' b → b ≠ c'.block → Ended c'.ctx b) →
      b ≠ c'.block → Ended c'.ctx b := by
    intro b hb hnew' hne
    rcases hcases b hb with h | ⟨hlt, hne₁, -, htouch⟩
    · exact hnew' h hne
    · exact hrest.grows.ended hlt hne₁ (hended b htouch hne₁)
  cases ending with
  | unended => exact ⟨fun b hb => hold b hb (h.1 b), h.2⟩
  | ended => exact ⟨fun b hb => hold b hb (h.1 b), h.2⟩
  | broken =>
      obtain ⟨b, ⟨hb₁, hb₂⟩, hbroken⟩ := h
      refine ⟨b, ⟨.inr ?_, hb₂⟩, hbroken⟩
      rcases hb₁ with rfl | hb₁
      · exact hnew
      · omega

/-- The blocks of an `if` : its body has to leave its last block without a jump. -/
theorem endIf_ending {c inner : IrCreator} {v : Value} {body : Statements}
    (hb : c.block < c.ctx.blockCount) (hbody : StatementsCreated c.enterBlock body inner)
    (hopen : Unended c.ctx c.block) {ending : Ending}
    (h : BlocksEnding c.enterBlock inner ending) :
    if ending = .unended then
      (∀ b, c.Touches (c.endIf inner v) b → b ≠ (c.endIf inner v).block →
        Ended (c.endIf inner v).ctx b) ∧ Unended (c.endIf inner v).ctx (c.endIf inner v).block
    else ∃ b, c.Touches (c.endIf inner v) b ∧ Broken (c.endIf inner v).ctx b := by
  have hcount : c.ctx.blockCount + 1 ≤ inner.ctx.blockCount := hbody.grows.blockCount
  have hlast : inner.block < inner.ctx.blockCount := hbody.block_lt
  have hlast' : inner.block = c.ctx.blockCount ∨ c.ctx.blockCount + 1 ≤ inner.block :=
    hbody.block_cases
  have hnew := extends_blockNew inner.ctx
  have hcjump := extends_emit (blockNew inner.ctx).1 c.block .jumpCond .void
    [some (.block c.ctx.blockCount), some (.block inner.ctx.blockCount), some v]
  have hjump := extends_emit ((blockNew inner.ctx).1.emit c.block .jumpCond .void
    [some (.block c.ctx.blockCount), some (.block inner.ctx.blockCount), some v]) inner.block
      .jump .void [some (.block inner.ctx.blockCount)]
  have htouch : ∀ b, c.enterBlock.Touches inner b → c.Touches (c.endIf inner v) b := by
    rintro b ⟨hb₁, hb₂⟩
    have hb₁' : b = c.ctx.blockCount ∨ c.ctx.blockCount + 1 ≤ b := hb₁
    exact ⟨.inr (by omega), Nat.lt_succ_of_lt hb₂⟩
  -- the last block of the body is not the current block of the `if`
  have hne : inner.block ≠ c.block := by omega
  have hlast_touched : c.enterBlock.Touches inner inner.block := ⟨hlast', hlast⟩
  cases ending with
  | unended =>
      obtain ⟨hended, hunended⟩ := h
      refine ⟨fun b hb' hne' => ?_, ?_⟩
      · have hb₂ : b < inner.ctx.blockCount + 1 := hb'.2
        have hne₂ : b ≠ inner.ctx.blockCount := hne'
        by_cases hlastb : b = inner.block
        · subst hlastb
          exact ended_emit _ _ (hcjump.unended (Nat.lt_succ_of_lt hlast) hne
            (hnew.unended hlast id hunended)) rfl
        · rcases hb'.1 with rfl | hb₁
          · have hcur := hbody.enterBlock_grows.unended hb (Nat.not_le_of_lt hb) hopen
            have hlt : c.block < inner.ctx.blockCount := by omega
            exact hjump.ended (Nat.lt_succ_of_lt hlt) hlastb
              (ended_emit _ _ (hnew.unended hlt id hcur) rfl)
          · have hb₃ : b < inner.ctx.blockCount := by omega
            have htouched : c.enterBlock.Touches inner b :=
              ⟨show b = c.ctx.blockCount ∨ c.ctx.blockCount + 1 ≤ b by omega, hb₃⟩
            exact (endIf_grows c inner v).ended (Nat.lt_succ_of_lt hb₃)
              (by omega) (hnew.ended hb₃ id (hended b htouched hlastb))
      · have hlt : inner.ctx.blockCount < (blockNew inner.ctx).1.blockCount := Nat.lt_succ_self _
        exact (endIf_grows c inner v).unended hlt
          (show ¬ (inner.ctx.blockCount = c.block ∨ inner.ctx.blockCount = inner.block) by omega)
          (unended_blockNew inner.ctx)
  | ended =>
      obtain ⟨-, hended⟩ := h
      have hended' := hcjump.ended (Nat.lt_succ_of_lt hlast) hne (hnew.ended hlast id hended)
      exact ⟨inner.block, htouch _ hlast_touched, broken_emit _ _ hended'⟩
  | broken =>
      obtain ⟨b, hb', hbroken⟩ := h
      exact ⟨b, htouch b hb', (endIf_grows c inner v).broken (Nat.lt_succ_of_lt hb'.2)
        (hnew.broken hb'.2 hbroken)⟩

/-- The blocks of a `while` : its body has to stay in its first block, and to leave it
without a jump. -/
theorem endLoop_ending {c inner c₁ : IrCreator} {condition : Expression} {v : Value}
    {body : Statements} (hb : c.block < c.ctx.blockCount)
    (hbody : StatementsCreated c.enterLoop.enterBlock body inner)
    (hv : createValue (c.loopHead inner) condition.toAst = some (c₁, v))
    (hopen : Unended c.ctx c.block) {ending : Ending}
    (h : BlocksEnding c.enterLoop.enterBlock inner ending) :
    if body.branches = false ∧ ending = .unended then
      (∀ b, c.Touches (c.endLoop inner c₁ v) b → b ≠ (c.endLoop inner c₁ v).block →
        Ended (c.endLoop inner c₁ v).ctx b) ∧
        Unended (c.endLoop inner c₁ v).ctx (c.endLoop inner c₁ v).block
    else ∃ b, c.Touches (c.endLoop inner c₁ v) b ∧ Broken (c.endLoop inner c₁ v).ctx b := by
  have hcount : c.ctx.blockCount + 2 ≤ inner.ctx.blockCount := hbody.grows.blockCount
  have hval := createValue_created hbody.loopHead_lt hv
  have hcount₁ : (c.endLoop inner c₁ v).ctx.blockCount = inner.ctx.blockCount + 1 :=
    hval.blockCount
  have hlast : inner.block < inner.ctx.blockCount := hbody.block_lt
  have hlast' : inner.block = c.ctx.blockCount + 1 ∨ c.ctx.blockCount + 2 ≤ inner.block :=
    hbody.block_cases
  have hback := extends_emit inner.ctx (c.ctx.blockCount + 1) .jump .void
    [some (.block c.ctx.blockCount)]
  have hexit := extends_blockNew (inner.ctx.emit (c.ctx.blockCount + 1) .jump .void
    [some (.block c.ctx.blockCount)])
  have hend := endLoop_grows hval
  have htouch : ∀ b, c.enterLoop.enterBlock.Touches inner b →
      c.Touches (c.endLoop inner c₁ v) b := by
    rintro b ⟨hb₁, hb₂⟩
    have hb₁' : b = c.ctx.blockCount + 1 ∨ c.ctx.blockCount + 2 ≤ b := hb₁
    exact ⟨.inr (by omega), by rw [hcount₁]; omega⟩
  have hstart : c.enterLoop.enterBlock.Touches inner (c.ctx.blockCount + 1) :=
    ⟨.inl rfl, by omega⟩
  -- the first block of the body, from the jump back on
  have hstart_broken : Broken (inner.ctx.emit (c.ctx.blockCount + 1) .jump .void
      [some (.block c.ctx.blockCount)]) (c.ctx.blockCount + 1) →
      ∃ b, c.Touches (c.endLoop inner c₁ v) b ∧ Broken (c.endLoop inner c₁ v).ctx b := by
    intro hbroken
    refine ⟨_, htouch _ hstart, hend.broken ?_ (hexit.broken hstart.2 hbroken)⟩
    show c.ctx.blockCount + 1 < inner.ctx.blockCount + 1
    omega
  by_cases hbroken : ending = .broken
  · subst hbroken
    obtain ⟨b, hb', hbroken⟩ := h
    rw [if_neg (by simp)]
    exact ⟨b, htouch b hb', hend.broken (Nat.lt_succ_of_lt hb'.2)
      ((loopHead_grows c inner).broken hb'.2 hbroken)⟩
  have hended : ∀ b, c.enterLoop.enterBlock.Touches inner b → b ≠ inner.block →
      Ended inner.ctx b := by
    cases ending with
    | unended => exact h.1
    | ended => exact h.1
    | broken => exact absurd rfl hbroken
  cases hbr : body.branches with
  | true =>
      have hne : c.ctx.blockCount + 1 ≠ inner.block := by
        have h : c.ctx.blockCount + 2 ≤ inner.block := hbody.block_new hbr
        omega
      rw [if_neg (by simp)]
      exact hstart_broken (broken_emit _ _ (hended _ hstart hne))
  | false =>
      have hsame : inner.block = c.ctx.blockCount + 1 := hbody.block_eq hbr
      cases ending with
      | broken => exact absurd rfl hbroken
      | ended =>
          rw [if_neg (by simp)]
          exact hstart_broken (broken_emit _ _ (hsame ▸ h.2))
      | unended =>
          rw [if_pos ⟨rfl, rfl⟩]
          refine ⟨fun b hb' hne' => ?_, ?_⟩
          · have hb₂ : b < inner.ctx.blockCount + 1 := hcount₁ ▸ hb'.2
            have hne₂ : b ≠ inner.ctx.blockCount := hne'
            have hb₃ : b < inner.ctx.blockCount := by omega
            by_cases hbhead : b = c.ctx.blockCount
            · -- the head is empty, gets the condition, and the conditional jump
              subst hbhead
              have h₀ : Unended c.enterLoop.ctx c.ctx.blockCount :=
                (extends_emit (blockNew c.ctx).1 c.block .jump .void _).unended
                  (Nat.lt_succ_self _) (Nat.ne_of_gt hb) (unended_blockNew c.ctx)
              have h₁ := hbody.enterBlock_grows.unended (Nat.lt_succ_self _)
                (Nat.not_le_of_lt (Nat.lt_succ_self _)) h₀
              have h₂ : Unended (c.loopHead inner).ctx (c.loopHead inner).block :=
                (loopHead_grows c inner).unended hb₃
                  (show ¬ c.ctx.blockCount = c.ctx.blockCount + 1 by omega) h₁
              have h₃ := createValue_unended hbody.loopHead_lt hv h₂
              have h₄ : Ended (c.endLoop inner c₁ v).ctx c₁.block := ended_emit _ _ h₃ rfl
              rw [hval.block] at h₄
              exact h₄
            refine hend.ended (Nat.lt_succ_of_lt hb₃) hbhead ?_
            by_cases hbstart : b = c.ctx.blockCount + 1
            · subst hbstart
              exact hexit.ended hb₃ id (ended_emit _ _ (hsame ▸ h.2) rfl)
            · refine (loopHead_grows c inner).ended hb₃ hbstart ?_
              rcases hb'.1 with rfl | hb₁
              · have h₀ : Ended c.enterLoop.ctx c.block := ended_emit _ _
                  ((extends_blockNew c.ctx).unended hb id hopen) rfl
                exact hbody.enterBlock_grows.ended (Nat.lt_succ_of_lt hb)
                  (Nat.not_le_of_lt (Nat.lt_succ_of_lt hb)) h₀
              · exact hended b ⟨.inr (show c.ctx.blockCount + 2 ≤ b by omega), hb₃⟩
                  (by omega)
          · have hlt : inner.ctx.blockCount < (c.loopHead inner).ctx.blockCount :=
              Nat.lt_succ_self _
            exact hend.unended hlt (show ¬ inner.ctx.blockCount = c.ctx.blockCount by omega)
              (unended_blockNew _)

/-- Statements that add no instruction. -/
theorem createStatements_silent {ss : Statements} {c c' : IrCreator} (hs : ss.silent = true)
    (h : createStatements c ss.toAst = some c') : c' = c := by
  induction ss generalizing c with
  | done => exact (Option.some.inj h).symm
  | other node hignored rest ih =>
      obtain ⟨c₁, hnode, hrest⟩ := createStatements_cons.mp h
      rw [createStatement_ignored c hignored] at hnode
      cases hnode
      exact ih hs hrest
  | _ => cases hs

/-- A block that grows after it has ended is broken. -/
theorem Ended.broken_of_lt {S : ℕ → Prop} {ir ir' : Ir} {b : ℕ} (h : Ended ir b)
    (hext : Extends S ir ir') (hb : b < ir.blockCount)
    (hlt : (ir.blocks b).length < (ir'.blocks b).length) : Broken ir' b := by
  obtain ⟨pre, i, heq, -, hi⟩ := h
  obtain ⟨post, hpost⟩ := hext.blocks b hb
  refine ⟨pre, i, post, ?_, ?_, hext.jumps hi⟩
  · rw [← hpost, heq, List.append_assoc]
    rfl
  · rintro rfl
    rw [← hpost, List.append_nil] at hlt
    exact Nat.lt_irrefl _ hlt

theorem length_lt_emit {S : ℕ → Prop} {ir ir' : Ir} {b : ℕ} (type : InstType)
    (dataType : DataType) (uses : List (Option Value)) (h : Extends S ir ir')
    (hb : b < ir.blockCount) :
    (ir.blocks b).length < ((ir'.emit b type dataType uses).blocks b).length := by
  rw [emit_blocks_self, List.length_append]
  exact Nat.lt_succ_of_le (h.blocks b hb).length_le

theorem createAssignment_length {c c₁ : IrCreator} {varName : Range} {e : Expression}
    (hb : c.block < c.ctx.blockCount)
    (h : createAssignment c (.variable varName false) e.toAst = some c₁) :
    (c.ctx.blocks c.block).length < (c₁.ctx.blocks c.block).length := by
  obtain ⟨var, c₀, v, -, hv, rfl⟩ := createAssignment_eq_some.mp h
  have hval := createValue_created hb hv
  have hlt := length_lt_emit (.assignVar var.rId) .void [some v] hval.grows hb
  unfold IrCreator.emit
  rw [hval.block]
  exact hlt

/-- Statements that add an instruction make the current block longer. -/
theorem createStatements_length {ss : Statements} {c c' : IrCreator} (hs : ss.silent = false)
    (hb : c.block < c.ctx.blockCount) (h : createStatements c ss.toAst = some c') :
    (c.ctx.blocks c.block).length < (c'.ctx.blocks c.block).length := by
  -- what comes after the first statement does not make it shorter
  have hrest : ∀ (c₁ : IrCreator) {rest : Statements}, c₁.block < c₁.ctx.blockCount →
      c.block < c₁.ctx.blockCount → createStatements c₁ rest.toAst = some c' →
      (c.ctx.blocks c.block).length < (c₁.ctx.blocks c.block).length →
      (c.ctx.blocks c.block).length < (c'.ctx.blocks c.block).length := by
    intro c₁ rest hb₁ hb₂ hrest hlt
    exact Nat.lt_of_lt_of_le hlt
      ((createStatements_created hb₁ hrest).grows.blocks c.block hb₂).length_le
  induction ss generalizing c with
  | done => cases hs
  | assign varName value rest _ =>
      obtain ⟨c₁, hassign, hc'⟩ := createStatements_cons.mp h
      have hassign' := createStatement_assign.mp hassign
      obtain ⟨hsimple, -⟩ := createAssignment_created hb hassign'
      exact hrest _ (by rw [hsimple.block, hsimple.blockCount]; exact hb)
        (by rw [hsimple.blockCount]; exact hb) hc' (createAssignment_length hb hassign')
  | declare dataType op varName value rest _ =>
      obtain ⟨c₂, hdeclare, hc'⟩ := createStatements_cons.mp h
      obtain ⟨c₁, hreg, hassign⟩ := createStatement_declare.mp hdeclare
      obtain ⟨hblock, hctx, -⟩ := createReg_scopes hreg
      have hb₁ : c₁.block < c₁.ctx.blockCount := by
        rw [hblock, hctx]
        exact hb
      obtain ⟨hsimple, -⟩ := createAssignment_created hb₁ hassign
      have hlt := createAssignment_length hb₁ hassign
      rw [hblock, hctx] at hlt
      exact hrest _ (by rw [hsimple.block, hsimple.blockCount]; exact hb₁)
        (by rw [hsimple.blockCount, hctx]; exact hb) hc' hlt
  | ifThen condition body rest _ _ =>
      obtain ⟨c₂, hif, hc'⟩ := createStatements_cons.mp h
      obtain ⟨c₁, v, inner, hv, hinner, rfl⟩ := createStatement_if.mp hif
      have hval := createValue_created hb hv
      have hbody := createStatements_created (c := c₁.enterBlock) (Nat.lt_succ_self _) hinner
      have hcount : c.ctx.blockCount + 1 ≤ inner.ctx.blockCount :=
        hval.blockCount ▸ hbody.grows.blockCount
      have hgrow := (hval.grows.trans hbody.enterBlock_grows (T := fun _ => True)
        fun _ _ h => absurd trivial h).trans (extends_blockNew inner.ctx) (T := fun _ => True)
          fun _ _ h => absurd trivial h
      have hlt := length_lt_emit .jumpCond .void
        [some (.block c₁.ctx.blockCount), some (.block inner.ctx.blockCount), some v] hgrow hb
      have hjump := (extends_emit ((blockNew inner.ctx).1.emit c₁.block .jumpCond .void
        [some (.block c₁.ctx.blockCount), some (.block inner.ctx.blockCount), some v]) inner.block
          .jump .void [some (.block inner.ctx.blockCount)]).blocks c.block
            (show c.block < inner.ctx.blockCount + 1 by omega)
      rw [hval.block] at hjump
      have hlt' : (c.ctx.blocks c.block).length <
          ((c₁.endIf inner v).ctx.blocks c.block).length := by
        unfold IrCreator.endIf
        rw [hval.block]
        exact Nat.lt_of_lt_of_le hlt hjump.length_le
      exact hrest (c₁.endIf inner v) (Nat.lt_succ_self _)
        (show _ < inner.ctx.blockCount + 1 by omega) hc' hlt'
  | whileDo condition body rest _ _ =>
      obtain ⟨c₂, hwhile, hc'⟩ := createStatements_cons.mp h
      obtain ⟨inner, c₁, v, hinner, hv, rfl⟩ := createStatement_while.mp hwhile
      have hbody := createStatements_created (c := c.enterLoop.enterBlock)
        (Nat.lt_succ_self _) hinner
      have hcount : c.ctx.blockCount + 2 ≤ inner.ctx.blockCount := hbody.grows.blockCount
      have hval := createValue_created hbody.loopHead_lt hv
      have hcount₁ : (c.endLoop inner c₁ v).ctx.blockCount = inner.ctx.blockCount + 1 :=
        hval.blockCount
      have hlt := length_lt_emit .jump .void [some (.block c.ctx.blockCount)]
        (extends_blockNew c.ctx) hb
      have hgrow := (hbody.enterBlock_grows.trans (loopHead_grows c inner) (T := fun _ => True)
        fun _ _ h => absurd trivial h).trans (endLoop_grows hval) (T := fun _ => True)
          fun _ _ h => absurd trivial h
      exact hrest _ hval.endLoop_lt (by rw [hcount₁]; omega) hc'
        (Nat.lt_of_lt_of_le hlt (hgrow.blocks c.block (Nat.lt_succ_of_lt hb)).length_le)
  | ret rest _ =>
      obtain ⟨c₁, hret, hc'⟩ := createStatements_cons.mp h
      rw [createStatement_return] at hret
      cases hret
      have hlt := length_lt_emit .ret .void [] (Extends.refl (fun _ => True) c.ctx) hb
      exact hrest (c.emit .ret .void []) hb hb hc' hlt
  | other node hignored rest ih =>
      obtain ⟨c₁, hnode, hc'⟩ := createStatements_cons.mp h
      rw [createStatement_ignored c hignored] at hnode
      cases hnode
      exact ih hs hb hc' hrest

/-- **The blocks of statements.** -/
theorem createStatements_ending {ss : Statements} {c c' : IrCreator}
    (hb : c.block < c.ctx.blockCount) (h : createStatements c ss.toAst = some c')
    (hopen : Unended c.ctx c.block) : BlocksEnding c c' ss.ending := by
  induction ss generalizing c c' with
  | done =>
      cases h
      refine ⟨fun b hb' hne => ?_, hopen⟩
      rcases hb'.1 with rfl | hlt
      · exact absurd rfl hne
      · exact absurd hb'.2 (Nat.not_lt_of_le hlt)
  | assign varName value rest ih =>
      obtain ⟨c₁, hassign, hrest⟩ := createStatements_cons.mp h
      have hassign' := createStatement_assign.mp hassign
      obtain ⟨hsimple, -⟩ := createAssignment_created hb hassign'
      exact (ih (by rw [hsimple.block, hsimple.blockCount]; exact hb) hrest
        (createAssignment_unended hb hassign' hopen)).cons_simple hsimple
  | declare dataType op varName value rest ih =>
      obtain ⟨c₂, hdeclare, hrest⟩ := createStatements_cons.mp h
      obtain ⟨c₁, hreg, hassign⟩ := createStatement_declare.mp hdeclare
      obtain ⟨hblock, hctx, -, htail, -⟩ := createReg_scopes hreg
      have hb₁ : c₁.block < c₁.ctx.blockCount := by
        rw [hblock, hctx]
        exact hb
      obtain ⟨hsimple, -⟩ := createAssignment_created hb₁ hassign
      have hsimple' : SimpleCreated c c₂ :=
        ⟨hsimple.block.trans hblock, hsimple.blockInfo.trans htail,
          hsimple.blockCount.trans (congrArg Ir.blockCount hctx),
          by rw [← hctx, ← hblock]; exact hsimple.grows⟩
      exact (ih (by rw [hsimple.block, hsimple.blockCount]; exact hb₁) hrest
        (createAssignment_unended hb₁ hassign (by rw [hblock, hctx]; exact hopen))).cons_simple
          hsimple'
  | ifThen condition body rest ihbody ihrest =>
      obtain ⟨c₂, hif, hrest⟩ := createStatements_cons.mp h
      obtain ⟨c₁, v, inner, hv, hinner, rfl⟩ := createStatement_if.mp hif
      have hval := createValue_created hb hv
      have hb₁ : c₁.block < c₁.ctx.blockCount := by
        rw [hval.block, hval.blockCount]
        exact hb
      have hbody := createStatements_created (c := c₁.enterBlock) (Nat.lt_succ_self _) hinner
      have hrest' := createStatements_created (c := c₁.endIf inner v) (Nat.lt_succ_self _) hrest
      have hending := endIf_ending (v := v) hb₁ hbody (createValue_unended hb hv hopen)
        (ihbody (c := c₁.enterBlock) (Nat.lt_succ_self _) hinner (unended_blockNew c₁.ctx))
      have htouch : c.Touches (c₁.endIf inner v) = c₁.Touches (c₁.endIf inner v) := by
        funext b
        unfold IrCreator.Touches
        rw [hval.block, hval.blockCount]
      have hcount : c.ctx.blockCount + 1 ≤ inner.ctx.blockCount :=
        hval.blockCount ▸ hbody.grows.blockCount
      rw [← htouch] at hending
      show BlocksEnding c c' (if body.ending = .unended then rest.ending else .broken)
      split at hending
      · rename_i heq
        rw [if_pos heq]
        exact (ihrest (c := c₁.endIf inner v) (Nat.lt_succ_self _) hrest hending.2).cons_branch
          (show c.ctx.blockCount ≤ inner.ctx.blockCount by omega)
          (show c.ctx.blockCount ≤ inner.ctx.blockCount + 1 by omega) hending.1 hrest'
      · rename_i hne
        rw [if_neg hne]
        obtain ⟨b, hb', hbroken⟩ := hending
        exact BlocksEnding.of_broken hb' hbroken hrest'.grows
  | whileDo condition body rest ihbody ihrest =>
      obtain ⟨c₂, hwhile, hrest⟩ := createStatements_cons.mp h
      obtain ⟨inner, c₁, v, hinner, hv, rfl⟩ := createStatement_while.mp hwhile
      have hbody := createStatements_created (c := c.enterLoop.enterBlock)
        (Nat.lt_succ_self _) hinner
      have hcount : c.ctx.blockCount + 2 ≤ inner.ctx.blockCount := hbody.grows.blockCount
      have hval := createValue_created hbody.loopHead_lt hv
      have hcount₁ : (c.endLoop inner c₁ v).ctx.blockCount = inner.ctx.blockCount + 1 :=
        hval.blockCount
      have hb₂ := hval.endLoop_lt
      have hrest' := createStatements_created hb₂ hrest
      have hending := endLoop_ending hb hbody hv hopen (ihbody (c := c.enterLoop.enterBlock)
        (Nat.lt_succ_self _) hinner (unended_blockNew _))
      show BlocksEnding c c' (if body.branches = false ∧ body.ending = .unended then rest.ending
        else .broken)
      split at hending
      · rename_i heq
        rw [if_pos heq]
        exact (ihrest hb₂ hrest hending.2).cons_branch
          (show c.ctx.blockCount ≤ inner.ctx.blockCount by omega)
          (by rw [hcount₁]; omega) hending.1 hrest'
      · rename_i hne
        rw [if_neg hne]
        obtain ⟨b, hb', hbroken⟩ := hending
        exact BlocksEnding.of_broken hb' hbroken hrest'.grows
  | ret rest ih =>
      obtain ⟨c₁, hret, hrest⟩ := createStatements_cons.mp h
      rw [createStatement_return] at hret
      cases hret
      have hended : Ended (c.emit .ret .void []).ctx c.block := ended_emit _ _ hopen rfl
      have hb₁ : (c.emit .ret .void []).block < (c.emit .ret .void []).ctx.blockCount := hb
      show BlocksEnding c c' (if rest.silent then .ended else .broken)
      cases hs : rest.silent with
      | true =>
          rw [createStatements_silent hs hrest]
          refine ⟨fun b hb' hne => ?_, hended⟩
          rcases hb'.1 with rfl | hlt
          · exact absurd rfl hne
          · exact absurd hb'.2 (Nat.not_lt_of_le hlt)
      | false =>
          have hlt := createStatements_length hs hb₁ hrest
          have hrest' := createStatements_created hb₁ hrest
          exact ⟨c.block, ⟨.inl rfl, Nat.lt_of_lt_of_le hb hrest'.grows.blockCount⟩,
            hended.broken_of_lt hrest'.grows hb hlt⟩
  | other node hignored rest ih =>
      obtain ⟨c₁, hnode, hrest⟩ := createStatements_cons.mp h
      rw [createStatement_ignored c hignored] at hnode
      cases hnode
      exact ih hb hrest hopen

/-! ## The blocks of a function -/

/-- In all blocks from `first` on, an instruction that can jump is the last one, and the
last one can jump, except in the block `current`. -/
def BlocksWellFormed (ir : Ir) (first current : ℕ) : Prop :=
  ∀ b, first ≤ b → b < ir.blockCount →
    (∀ k i, (ir.blocks b)[k]? = some i → (ir.insts i).type.isTerminator = true →
      k + 1 = (ir.blocks b).length) ∧
    (b ≠ current → ∃ i, blockLastInstruction ir b = some i ∧
      (ir.insts i).type.isTerminator = true)

theorem BlocksWellFormed.not_broken {ir : Ir} {first current b : ℕ}
    (h : BlocksWellFormed ir first current) (hfirst : first ≤ b) (hb : b < ir.blockCount) :
    ¬ Broken ir b := by
  rintro ⟨pre, i, post, heq, hpost, hi⟩
  have hpos : (ir.blocks b)[pre.length]? = some i := by
    rw [heq, List.getElem?_append_right (Nat.le_refl _), Nat.sub_self]
    rfl
  have hlen := (h b hfirst hb).1 pre.length i hpos hi.2
  rw [heq, List.length_append, List.length_cons] at hlen
  exact hpost (List.length_eq_zero_iff.mp (by omega))

theorem Unended.terminator_last {ir : Ir} {b k i : ℕ} (h : Unended ir b)
    (hk : (ir.blocks b)[k]? = some i) (hi : (ir.insts i).type.isTerminator = true) :
    k + 1 = (ir.blocks b).length := by
  have hstraight := (h i (List.mem_of_getElem? hk)).2
  rw [hi] at hstraight
  cases hstraight

theorem Ended.terminator_last {ir : Ir} {b k i : ℕ} (h : Ended ir b)
    (hk : (ir.blocks b)[k]? = some i) (hi : (ir.insts i).type.isTerminator = true) :
    k + 1 = (ir.blocks b).length := by
  obtain ⟨pre, j, heq, hpre, -⟩ := h
  rw [heq] at hk ⊢
  rw [List.length_append, List.length_singleton]
  have hlt : k < pre.length + 1 := by
    obtain ⟨hlt, -⟩ := List.getElem?_eq_some_iff.mp hk
    rwa [List.length_append, List.length_singleton] at hlt
  by_cases hkpre : k < pre.length
  · rw [List.getElem?_append_left hkpre] at hk
    have hstraight := (hpre i (List.mem_of_getElem? hk)).2
    rw [hi] at hstraight
    cases hstraight
  · omega

theorem Ended.last {ir : Ir} {b : ℕ} (h : Ended ir b) :
    ∃ i, blockLastInstruction ir b = some i ∧ (ir.insts i).type.isTerminator = true := by
  obtain ⟨pre, i, heq, -, hi⟩ := h
  refine ⟨i, ?_, hi.2⟩
  unfold blockLastInstruction
  rw [heq, List.getLast?_concat]

/-- The blocks that statements in a new block make. -/
theorem blocksWellFormed_iff {c inner : IrCreator} {ss : Statements}
    (h : createStatements c.enterBlock ss.toAst = some inner) :
    BlocksWellFormed inner.ctx c.ctx.blockCount inner.block ↔ ss.ending ≠ .broken := by
  have hblocks := createStatements_ending (c := c.enterBlock) (Nat.lt_succ_self _) h
    (unended_blockNew c.ctx)
  have htouch : ∀ b, c.ctx.blockCount ≤ b → b < inner.ctx.blockCount →
      c.enterBlock.Touches inner b := by
    intro b hb hb'
    exact ⟨show b = c.ctx.blockCount ∨ c.ctx.blockCount + 1 ≤ b by omega, hb'⟩
  constructor
  · intro hwf hbroken
    rw [hbroken] at hblocks
    obtain ⟨b, ⟨hb, hb'⟩, hbroken⟩ := hblocks
    have hfirst : c.ctx.blockCount ≤ b := by
      have hb : b = c.ctx.blockCount ∨ c.ctx.blockCount + 1 ≤ b := hb
      omega
    exact hwf.not_broken hfirst hb' hbroken
  · intro hne b hb hb'
    cases hending : ss.ending with
    | unended =>
        rw [hending] at hblocks
        by_cases hcur : b = inner.block
        · subst hcur
          exact ⟨fun k i => hblocks.2.terminator_last, fun h => absurd rfl h⟩
        · have hended := hblocks.1 b (htouch b hb hb') hcur
          exact ⟨fun k i => hended.terminator_last, fun _ => hended.last⟩
    | ended =>
        rw [hending] at hblocks
        by_cases hcur : b = inner.block
        · subst hcur
          exact ⟨fun k i => hblocks.2.terminator_last, fun h => absurd rfl h⟩
        · have hended := hblocks.1 b (htouch b hb hb') hcur
          exact ⟨fun k i => hended.terminator_last, fun _ => hended.last⟩
    | broken => exact absurd hending hne

/-- **The blocks of a function are well formed exactly if** no `return` has anything after
it (the jump behind a body included) and no body of a `while` contains an `if` or a
`while` itself. -/
theorem createFunction_blocksWellFormed_iff {creator creator' : IrCreator} {f : AstNode}
    {entry : ℕ} (h : irCreatorCreateFunction creator f = some (creator', entry)) :
    ∃ name returnType others, ∃ body : Statements, ∃ last,
      f = .function name returnType others.length (.block body.toAst :: others) ∧
      createBlock creator (.block body.toAst) = some (creator', entry, last) ∧
      (BlocksWellFormed creator'.ctx creator.ctx.blockCount last ↔ body.ending ≠ .broken) := by
  obtain ⟨name, returnType, l, others, inner, rfl, hinner, hr⟩ := createFunction_eq_some.mp h
  obtain ⟨body, rfl⟩ := exists_statements hinner
  cases hr
  exact ⟨name, returnType, others, body, inner.block, rfl,
    createBlock_eq_some.mpr ⟨inner, hinner, rfl⟩, blocksWellFormed_iff hinner⟩

theorem createFunction_blocksWellFormed_branchAndCount :
    ∃ creator' entry, irCreatorCreateFunction (irCreatorInit irContextInit)
        (functionAst [] .KW_VOID branchAndCount) = some (creator', entry) ∧
      ∃ name returnType others, ∃ body : Statements, ∃ last,
        functionAst [] .KW_VOID branchAndCount =
          .function name returnType others.length (.block body.toAst :: others) ∧
        createBlock (irCreatorInit irContextInit) (.block body.toAst) =
          some (creator', entry, last) ∧
        (BlocksWellFormed creator'.ctx 0 last ↔ body.ending ≠ .broken) := by
  obtain ⟨inner, hinner⟩ := createBody_succeeds
    (show (irCreatorInit irContextInit).blockInfo = [] from rfl) wellScoped_branchAndCount
  have hcreate := createFunction_eq_some.mpr
    ⟨[], .KW_VOID, branchAndCount.toAst, [], inner, rfl, hinner, rfl⟩
  exact ⟨_, _, hcreate, createFunction_blocksWellFormed_iff hcreate⟩

/-- `if (1) { return; }` : the jump behind the body follows the `return`. -/
def returnInIf : Statements := .ifThen (.number 1) (.ret .done) .done

theorem createFunction_blocks_broken :
    ∃ creator' entry last, createBlock (irCreatorInit irContextInit)
        (.block returnInIf.toAst) = some (creator', entry, last) ∧
      irCreatorCreateFunction (irCreatorInit irContextInit)
        (functionAst [] .KW_VOID returnInIf) = some (creator', entry) ∧
      ¬ BlocksWellFormed creator'.ctx 0 last := by
  obtain ⟨inner, hinner⟩ := createBody_succeeds
    (show (irCreatorInit irContextInit).blockInfo = [] from rfl)
    (show returnInIf.WellScoped [fun _ => none] 0 by decide)
  refine ⟨_, _, inner.block, createBlock_eq_some.mpr ⟨inner, hinner, rfl⟩,
    createFunction_eq_some.mpr ⟨[], .KW_VOID, returnInIf.toAst, [], inner, rfl, hinner, rfl⟩, ?_⟩
  intro hwf
  exact absurd (show returnInIf.ending = .broken by decide)
    ((blocksWellFormed_iff (c := irCreatorInit irContextInit) hinner).mp hwf)
