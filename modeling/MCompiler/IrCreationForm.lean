/-
# The form of created functions

A created function is in load/assign form: operands are defined earlier in their block, and
a block with a jump does not end with a load or an assign (`createdForm`).  In a function
with well-scoped statements every load is dominated by an assign
(`created_loadsDominated`).
-/
import MCompiler.IrCreationLoads
import MCompiler.SsaFrame

open FlowGraph

/-- A function in load/assign form without phis, whatever its registers are. -/
structure FunctionForm (ir : Ir) (entry : ℕ) : Prop where
  assign : ∀ b, Reachable (cfgEdge ir) entry b → ∀ i ∈ ir.blocks b,
    ∀ a, (ir.insts i).type = .assignVar a → ∃ v, (ir.insts i).uses = [some v]
  jump : ∀ b, Reachable (cfgEdge ir) entry b → ∀ l i, ir.blocks b = l ++ [i] →
    (ir.insts i).type.isLoadAssign → ∀ j ∈ l, ∀ k x, ir.operand ⟨j, k⟩ ≠ some (.block x)
  operand : ∀ b, Reachable (cfgEdge ir) entry b → ∀ i ∈ ir.blocks b,
    (ir.insts i).type ≠ .phi → ∀ k v, ir.operand ⟨i, k⟩ = some v → OperandOk ir entry b i v
  phi : PhiFree ir entry

section Created

variable {c inner : IrCreator} {body : Statements}

/-- A new block is empty. -/
theorem enterBlock_blocks (hheap : HeapClosed c.ctx) {b : ℕ} (hb : c.ctx.blockCount ≤ b) :
    c.enterBlock.ctx.blocks b = [] := by
  show (blockNew c.ctx).1.blocks b = []
  rw [hheap.blockNew_blocks]
  exact hheap.empty b hb

variable (hheap : HeapClosed c.ctx) (h : createStatements c.enterBlock body.toAst = some inner)

include hheap h

theorem created_builds :
    Builds c.enterBlock.Ahead c.enterBlock.Unmade c.enterBlock.ctx inner.ctx :=
  createStatements_builds (c := c.enterBlock) (Nat.lt_succ_self _) hheap.block_new h

theorem created_heap : HeapClosed inner.ctx :=
  (created_builds hheap h).heapClosed hheap.block_new

theorem created_made : BlocksMade c.ctx.blockCount inner.ctx := by
  refine (created_builds hheap h).blocksMade hheap.block_new
    ⟨fun b hb => ?_, fun b hb pre i post hblock => ?_⟩
  · rw [enterBlock_blocks hheap hb]
    exact .nil
  · rw [enterBlock_blocks hheap hb] at hblock
    simp at hblock

/-- The instructions of the function are new, and their jumps lead to new blocks. -/
theorem created_new {b i : ℕ} (hb : c.ctx.blockCount ≤ b) (hi : i ∈ inner.ctx.blocks b) :
    c.ctx.instCount ≤ i ∧
      ∀ t, some (.block t) ∈ (inner.ctx.insts i).uses → c.ctx.blockCount ≤ t := by
  rcases (created_builds hheap h).mem_cases hi with hold | ⟨hge, -, htargets⟩
  · rw [enterBlock_blocks hheap hb] at hold
    cases hold
  · exact ⟨hge, fun t ht => Nat.le_of_succ_le (htargets t ht)⟩

theorem created_reachable {b : ℕ} (hb : Reachable (cfgEdge inner.ctx) c.ctx.blockCount b) :
    c.ctx.blockCount ≤ b := by
  obtain ⟨p, hp⟩ := hb
  induction hp with
  | root => exact Nat.le_refl _
  | step _ hE ih =>
      obtain ⟨l, i, hl, huse⟩ := exists_last_of_edge hE
      exact (created_new hheap h ih (by rw [hl]; simp)).2 _ huse

theorem created_jumps : JumpsLast inner.ctx c.ctx.instCount inner.ctx.instCount := by
  refine createStatements_jumps (c := c.enterBlock) (Nat.lt_succ_self _) hheap.block_new h .refl ?_
  intro _ j hj hge
  exact absurd ((created_heap hheap h).allocated _ j hj) (Nat.not_lt_of_le hge)

/-- **The form of a created function.** -/
theorem createdForm : FunctionForm inner.ctx c.ctx.blockCount := by
  have hmade := created_made hheap h
  have hheap' := created_heap hheap h
  have hinst : ∀ b, Reachable (cfgEdge inner.ctx) c.ctx.blockCount b → ∀ i ∈ inner.ctx.blocks b,
      ∃ pre post, inner.ctx.blocks b = pre ++ i :: post ∧
        Made inner.ctx pre (inner.ctx.insts i).type (inner.ctx.insts i).uses := by
    intro b hb i hi
    obtain ⟨pre, post, hblock⟩ := List.append_of_mem hi
    exact ⟨pre, post, hblock, hmade.made b (created_reachable hheap h hb) pre i post hblock⟩
  refine ⟨fun b hb i hi a htype => ?_, fun b hb l i hblock hi j hj k x hx => ?_,
    fun b hb i hi _ k v hv => ?_, fun b hb i hi htype => ?_⟩
  · obtain ⟨pre, post, -, hmade⟩ := hinst b hb i hi
    rw [htype] at hmade
    generalize (inner.ctx.insts i).uses = uses at hmade
    cases hmade with
    | assign a hv => exact ⟨_, rfl⟩
  · -- a jump before the end of its block is followed by another jump
    obtain ⟨pre, mid, rfl⟩ := List.append_of_mem hj
    rw [List.append_assoc, List.cons_append] at hblock
    have hjmem : j ∈ inner.ctx.blocks b := mem_of_split hblock
    have hnew := (created_new hheap h (created_reachable hheap h hb) hjmem).1
    rcases created_jumps hheap h b pre j (mid ++ [i]) x hblock hnew (hheap'.allocated b j hjmem)
      (mem_uses_of_operand hx) with hnil | ⟨init, j', lo, hi', hpost, htype, -⟩
    · simp at hnil
    · obtain ⟨-, hlast⟩ := List.append_inj' hpost rfl
      obtain rfl := List.singleton_inj.mp hlast
      rw [htype] at hi
      cases hi
  · obtain ⟨pre, post, hblock, hmade⟩ := hinst b hb i hi
    rcases hmade.operand (mem_uses_of_operand hv) with hin | ⟨t, rfl, -, hjump⟩
    · cases v with
      | inst j => exact .inst hin.2 (.inl ⟨pre, post, hblock, hin.1⟩)
      | const x => exact .const x
      | block x => exact absurd hin id
    · exact .block t hjump
  · obtain ⟨pre, post, -, hmade⟩ := hinst b hb i hi
    rw [htype] at hmade
    cases hmade

/-- **Lexical scoping is dominance.**  In well-scoped statements every load is dominated by
an assign. -/
theorem created_loadsDominated {scopes : Scopes} {n : ℕ} (hinfo : c.blockInfo = [])
    (hscoped : body.WellScoped scopes n) : LoadsDominated inner.ctx c.ctx.blockCount := by
  have hheap' := created_heap hheap h
  have hsup : ScopeSupplied inner.ctx c.ctx.blockCount c.enterBlock inner.ctx.blockCount := by
    intro name var hvar
    rw [findReg_enterBlock, hinfo] at hvar
    cases hvar
  have hloads := createStatements_loads c.ctx.blockCount inner.ctx body hscoped (c := c.enterBlock)
    (Nat.lt_succ_self _) hheap.block_new h .refl (Nat.le_refl _) hsup
  intro b hb pre i post a hblock htype
  have hi : i ∈ inner.ctx.blocks b := mem_of_split hblock
  have hnew := (created_new hheap h (created_reachable hheap h hb) hi).1
  rcases hloads b pre i post a hblock hnew (hheap'.allocated b i hi) htype with
    hassigned | ⟨p, lo, hi', hbase, hgate, hlo, hhi, hassigned⟩
  · exact .inl hassigned
  · exact .inr ⟨p, hgate.strictlyDominates (.inl (Nat.lt_of_le_of_lt hbase hgate.1)) hlo hhi,
      hassigned⟩

end Created
