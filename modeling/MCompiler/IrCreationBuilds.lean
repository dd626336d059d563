/-
# What IR creation builds

Creation makes constants, blocks and instructions, and appends each instruction to a block
(`Builds`).  An instruction that it makes has its operands from the same block (`Made`).
`createStatements_builds` : statements append to the current block and to new blocks, and
their jumps lead to new blocks.  Everything else about the heap follows from the single
steps.
-/
import MCompiler.IrCreationBlocks
import MCompiler.SsaFunction

open FlowGraph

/-! ## Instructions -/

/-- An operand after the instructions `pre` : a constant, or one of their results. -/
def OperandIn (ir : Ir) (pre : List ℕ) : Value → Prop
  | .inst j => j ∈ pre ∧ (ir.insts j).type.hasResult
  | .const c => c < ir.constCount
  | .block _ => False

/-- The instructions that creation makes, after the instructions `pre` of the block. -/
inductive Made (ir : Ir) (pre : List ℕ) : InstType → List (Option Value) → Prop
  | load (a : ℕ) : Made ir pre (.loadVar a) []
  | assign (a : ℕ) {v : Value} : OperandIn ir pre v → Made ir pre (.assignVar a) [some v]
  | binary (op : BinaryOps) {l r : Value} : OperandIn ir pre l → OperandIn ir pre r →
      Made ir pre (.binary op) [some l, some r]
  | jump {t : ℕ} : t < ir.blockCount → Made ir pre .jump [some (.block t)]
  | jumpCond {x y : ℕ} {v : Value} : x < ir.blockCount → y < ir.blockCount →
      OperandIn ir pre v → Made ir pre .jumpCond [some (.block x), some (.block y), some v]
  | ret : Made ir pre .ret []

/-- `ir'` is `ir` with more constants and blocks, and with more instructions at the ends of
blocks in `S`, whose jumps lead to blocks in `T`. -/
inductive Builds (S T : ℕ → Prop) (ir : Ir) : Ir → Prop
  | refl : Builds S T ir ir
  | const {ir' : Ir} (num : Int64) : Builds S T ir ir' → Builds S T ir (irConstantValue ir' num).1
  | block {ir' : Ir} : Builds S T ir ir' → Builds S T ir (blockNew ir').1
  | emit {ir' : Ir} {b : ℕ} {type : InstType} (dataType : DataType) {uses : List (Option Value)} :
      Builds S T ir ir' → b < ir'.blockCount → S b → Made ir' (ir'.blocks b) type uses →
      (∀ t, some (.block t) ∈ uses → T t) → Builds S T ir (ir'.emit b type dataType uses)

section Heap

/-- A heap whose operands are allocated. -/
structure HeapClosed (ir : Ir) : Prop extends HeapOk ir where
  block : ∀ u t, ir.operand u = some (.block t) → t < ir.blockCount
  const : ∀ u c, ir.operand u = some (.const c) → c < ir.constCount
  empty : ∀ b, ir.blockCount ≤ b → ir.blocks b = []

/-- In the blocks from `base` on, instructions stand in the order of their creation, after
their operands. -/
structure BlocksMade (base : ℕ) (ir : Ir) : Prop where
  sorted : ∀ b, base ≤ b → (ir.blocks b).Pairwise (· < ·)
  made : ∀ b, base ≤ b → ∀ pre i post, ir.blocks b = pre ++ i :: post →
    Made ir pre (ir.insts i).type (ir.insts i).uses

variable {S T S' T' : ℕ → Prop} {ir ir' ir'' : Ir}

/-! ## Building -/

namespace Builds

theorem trans (h : Builds S T ir ir') (h' : Builds S T ir' ir'') : Builds S T ir ir'' := by
  induction h' with
  | refl => exact h
  | const num _ ih => exact .const num ih
  | block _ ih => exact .block ih
  | emit dataType _ hb hS hmade hT ih => exact .emit dataType ih hb hS hmade hT

theorem mono (h : Builds S T ir ir') (hS : ∀ b, S b → S' b) (hT : ∀ t, T t → T' t) :
    Builds S' T' ir ir' := by
  induction h with
  | refl => exact .refl
  | const num _ ih => exact .const num ih
  | block _ ih => exact .block ih
  | emit dataType _ hb hSb hmade hTt ih =>
      exact .emit dataType ih hb (hS _ hSb) hmade fun t ht => hT t (hTt t ht)

theorem any (h : Builds S T ir ir') : Builds (fun _ => True) (fun _ => True) ir ir' :=
  h.mono (fun _ _ => trivial) fun _ _ => trivial

/-- What was there stays. -/
theorem grows (h : Builds S T ir ir') : Extends S ir ir' := by
  induction h with
  | refl => exact .refl S ir
  | @const ir' num _ ih =>
      exact ih.trans (extends_irConstantValue ir' num) fun b _ hb => ⟨hb, id⟩
  | @block ir' _ ih => exact ih.trans (extends_blockNew ir') fun b _ hb => ⟨hb, id⟩
  | @emit ir' b type dataType uses _ _ hS _ _ ih =>
      refine ih.trans (extends_emit ir' b type dataType uses) fun x _ hx => ⟨hx, ?_⟩
      rintro rfl
      exact hx hS

/-- An instruction of a block is an old one, or a new one in a block that may grow, and its
jumps lead where they may. -/
theorem mem_cases (h : Builds S T ir ir') {b i : ℕ} (hi : i ∈ ir'.blocks b) :
    i ∈ ir.blocks b ∨
      ir.instCount ≤ i ∧ S b ∧ ∀ t, some (.block t) ∈ (ir'.insts i).uses → T t := by
  induction h with
  | refl => exact .inl hi
  | const num _ ih => exact ih hi
  | @block ir' _ ih =>
      by_cases hb : b = ir'.blockCount
      · rw [hb, blockNew_blocks_self] at hi
        cases hi
      · rw [blockNew_blocks_of_ne ir' hb] at hi
        exact ih hi
  | @emit ir' x type dataType uses hbuilds _ hS _ hT ih =>
      have hcase : i ∈ ir'.blocks b ∨ b = x ∧ i = ir'.instCount := by
        by_cases hb : b = x
        · subst hb
          rw [emit_blocks_self] at hi
          rcases List.mem_append.mp hi with hi | hi
          · exact .inl hi
          · exact .inr ⟨rfl, List.mem_singleton.mp hi⟩
        · rw [emit_blocks_of_ne _ _ _ _ _ hb] at hi
          exact .inl hi
      by_cases hlast : i = ir'.instCount
      · rw [hlast, emit_insts_self]
        rcases hcase with hi | ⟨rfl, -⟩
        · exact (ih hi).imp (fun h => hlast ▸ h) fun h => ⟨hlast ▸ h.1, h.2.1, hT⟩
        · exact .inr ⟨hbuilds.grows.instCount, hS, hT⟩
      · rw [emit_insts_of_ne _ _ _ _ _ hlast]
        exact ih (hcase.resolve_right fun h => hlast h.2)

end Builds

/-! ## The heap -/

theorem OperandIn.mono {pre pre' : List ℕ} {v : Value} (h : OperandIn ir pre v)
    (hext : Extends S ir ir') (hold : ∀ j ∈ pre, j < ir.instCount) (hpre : ∀ j ∈ pre, j ∈ pre') :
    OperandIn ir' pre' v := by
  cases v with
  | inst j => exact ⟨hpre j h.1, by rw [hext.insts j (hold j h.1)]; exact h.2⟩
  | const c => exact Nat.lt_of_lt_of_le h hext.constCount
  | block b => exact h

theorem Made.mono {pre : List ℕ} {type : InstType} {uses : List (Option Value)}
    (h : Made ir pre type uses) (hext : Extends S ir ir') (hold : ∀ j ∈ pre, j < ir.instCount) :
    Made ir' pre type uses := by
  cases h with
  | load a => exact .load a
  | assign a hv => exact .assign a (hv.mono hext hold fun _ => id)
  | binary op hl hr =>
      exact .binary op (hl.mono hext hold fun _ => id) (hr.mono hext hold fun _ => id)
  | jump ht => exact .jump (Nat.lt_of_lt_of_le ht hext.blockCount)
  | jumpCond hx hy hv =>
      exact .jumpCond (Nat.lt_of_lt_of_le hx hext.blockCount)
        (Nat.lt_of_lt_of_le hy hext.blockCount) (hv.mono hext hold fun _ => id)
  | ret => exact .ret

/-- The operands of a made instruction. -/
theorem Made.operand {pre : List ℕ} {type : InstType} {uses : List (Option Value)}
    (h : Made ir pre type uses) {v : Value} (hv : some v ∈ uses) :
    OperandIn ir pre v ∨ ∃ t, v = .block t ∧ t < ir.blockCount ∧ type.isJump := by
  cases h with
  | load a => cases hv
  | assign a ha =>
      rw [List.mem_singleton, Option.some.injEq] at hv
      exact .inl (hv ▸ ha)
  | binary op hl hr =>
      simp only [List.mem_cons, Option.some.injEq, List.not_mem_nil, or_false] at hv
      rcases hv with rfl | rfl
      · exact .inl hl
      · exact .inl hr
  | jump ht =>
      rw [List.mem_singleton, Option.some.injEq] at hv
      exact .inr ⟨_, hv, ht, rfl⟩
  | jumpCond hx hy hc =>
      simp only [List.mem_cons, Option.some.injEq, List.not_mem_nil, or_false] at hv
      rcases hv with rfl | rfl | rfl
      · exact .inr ⟨_, rfl, hx, rfl⟩
      · exact .inr ⟨_, rfl, hy, rfl⟩
      · exact .inl hc
  | ret => cases hv

/-- An operand is in the list of the operands. -/
theorem mem_uses_of_operand {u : Use} {v : Value} (h : ir.operand u = some v) :
    some v ∈ (ir.insts u.inst).uses :=
  List.mem_of_getElem? (Ir.operand_eq_some.mp h)

theorem heapClosed_irContextInit : HeapClosed irContextInit where
  uses := ⟨fun v u => ⟨fun h => absurd h List.not_mem_nil, fun h => by cases h⟩,
    fun _ => List.nodup_nil⟩
  fresh _ _ := rfl
  nodup _ := List.nodup_nil
  parent _ _ hi := absurd hi List.not_mem_nil
  allocated _ _ hi := absurd hi List.not_mem_nil
  operand _ _ h := by cases h
  block _ _ h := by cases h
  const _ _ h := by cases h
  empty _ _ := rfl

theorem HeapClosed.const_new (h : HeapClosed ir) (num : Int64) :
    HeapClosed (irConstantValue ir num).1 where
  uses := by
    have hlist : ∀ v, (irConstantValue ir num).1.uses v = ir.uses v := by
      intro v
      show Function.update ir.uses (.const ir.constCount) [] v = ir.uses v
      by_cases hv : v = .const ir.constCount
      · subst hv
        rw [Function.update_self, Eq.comm, List.eq_nil_iff_forall_not_mem]
        exact fun u hu => Nat.lt_irrefl _ (h.const u _ ((h.uses.mem _ u).mp hu))
      · exact Function.update_of_ne hv _ _
    exact ⟨fun v u => by rw [hlist]; exact h.uses.mem v u,
      fun v => by rw [hlist]; exact h.uses.nodup v⟩
  fresh := h.fresh
  nodup := h.nodup
  parent := h.parent
  allocated := h.allocated
  operand := h.operand
  block := h.block
  const u c hu := Nat.lt_succ_of_lt (h.const u c hu)
  empty := h.empty

/-- A new block adds no instruction to a block. -/
theorem HeapClosed.blockNew_blocks (h : HeapClosed ir) : (blockNew ir).1.blocks = ir.blocks := by
  funext b
  by_cases hb : b = ir.blockCount
  · rw [hb, blockNew_blocks_self, h.empty _ (Nat.le_refl _)]
  · exact blockNew_blocks_of_ne ir hb

theorem HeapClosed.block_new (h : HeapClosed ir) : HeapClosed (blockNew ir).1 := by
  have hlist : ∀ v, (blockNew ir).1.uses v = ir.uses v := by
    intro v
    show Function.update ir.uses (.block ir.blockCount) [] v = ir.uses v
    by_cases hv : v = .block ir.blockCount
    · subst hv
      rw [Function.update_self, Eq.comm, List.eq_nil_iff_forall_not_mem]
      exact fun u hu => Nat.lt_irrefl _ (h.block u _ ((h.uses.mem _ u).mp hu))
    · exact Function.update_of_ne hv _ _
  have hblocks := h.blockNew_blocks
  refine ⟨⟨⟨fun v u => ?_, fun v => ?_⟩, h.fresh, ?_, ?_, ?_, h.operand⟩,
    fun u t hu => Nat.lt_succ_of_lt (h.block u t hu), h.const, ?_⟩
  · rw [hlist]
    exact h.uses.mem v u
  · rw [hlist]
    exact h.uses.nodup v
  · rw [hblocks]
    exact h.nodup
  · rw [hblocks]
    exact h.parent
  · rw [hblocks]
    exact h.allocated
  · intro b hb
    rw [hblocks]
    exact h.empty b (Nat.le_of_succ_le hb)

/-- The operands after a new instruction. -/
theorem operand_emit (ir : Ir) (b : ℕ) (type : InstType) (dataType : DataType)
    (uses : List (Option Value)) (u : Use) :
    (ir.emit b type dataType uses).operand u =
      if u.inst = ir.instCount then uses[u.slot]?.join else ir.operand u := by
  unfold Ir.operand
  split
  · rename_i hu
    rw [hu, emit_insts_self]
  · rename_i hu
    rw [emit_insts_of_ne _ _ _ _ _ hu]

theorem mem_blocks_emit (ir : Ir) (b : ℕ) (type : InstType) (dataType : DataType)
    (uses : List (Option Value)) {x i : ℕ} : i ∈ (ir.emit b type dataType uses).blocks x ↔
      i ∈ ir.blocks x ∨ x = b ∧ i = ir.instCount := by
  by_cases hx : x = b
  · subst hx
    rw [emit_blocks_self]
    simp
  · rw [emit_blocks_of_ne _ _ _ _ _ hx]
    simp [hx]

theorem nodup_usesOf (inst : ℕ) (v : Value) (k : ℕ) (xs : List (Option Value)) :
    (usesOf inst v k xs).Nodup := by
  induction xs generalizing k with
  | nil => exact List.nodup_nil
  | cons x xs ih =>
      rw [usesOf]
      split
      · rw [List.singleton_append, List.nodup_cons]
        -- the later slots have greater numbers
        exact ⟨fun h => Nat.not_succ_le_self k (mem_usesOf.mp h).2.1, ih (k + 1)⟩
      · rw [List.nil_append]
        exact ih (k + 1)

theorem mem_emit_uses (h : HeapClosed ir) (b : ℕ) (type : InstType) (dataType : DataType)
    (uses : List (Option Value)) {v : Value} {u : Use} :
    u ∈ (ir.emit b type dataType uses).uses v ↔
      (ir.emit b type dataType uses).operand u = some v := by
  rw [emit_uses, operand_emit, List.mem_append, mem_usesOf, Nat.sub_zero]
  have hfresh : u.inst = ir.instCount → ir.operand u = none := by
    intro hu
    unfold Ir.operand
    rw [h.fresh u.inst (Nat.le_of_eq hu.symm)]
    rfl
  have hold : u ∈ (if v = .inst ir.instCount then [] else ir.uses v) ↔ ir.operand u = some v := by
    split
    · rename_i hv
      refine ⟨fun hu => absurd hu List.not_mem_nil, fun hu => ?_⟩
      exact absurd (h.operand u _ (hv ▸ hu)) (Nat.lt_irrefl _)
    · exact h.uses.mem v u
  rw [hold]
  by_cases hu : u.inst = ir.instCount
  · rw [if_pos hu, hfresh hu, Option.join_eq_some_iff]
    simp [hu]
  · rw [if_neg hu]
    simp [hu]

theorem HeapClosed.emit_made (h : HeapClosed ir) {b : ℕ} {type : InstType} (dataType : DataType)
    {uses : List (Option Value)} (hb : b < ir.blockCount)
    (hmade : Made ir (ir.blocks b) type uses) : HeapClosed (ir.emit b type dataType uses) := by
  -- an operand is an old one or one of the new instruction
  have hoperand : ∀ u v, (ir.emit b type dataType uses).operand u = some v →
      ir.operand u = some v ∨ OperandIn ir (ir.blocks b) v ∨
        ∃ t, v = .block t ∧ t < ir.blockCount ∧ type.isJump := by
    intro u v hu
    rw [operand_emit] at hu
    split at hu
    · exact .inr (hmade.operand (List.mem_of_getElem? (Option.join_eq_some_iff.mp hu)))
    · exact .inl hu
  have hnew : ir.instCount ∉ ir.blocks b := fun hi => Nat.lt_irrefl _ (h.allocated b _ hi)
  refine ⟨⟨⟨fun v u => mem_emit_uses h b type dataType uses, fun v => ?_⟩, ?_, ?_, ?_, ?_, ?_⟩,
    ?_, ?_, ?_⟩
  · rw [emit_uses, List.nodup_append]
    refine ⟨?_, nodup_usesOf _ _ _ _, ?_⟩
    · split
      · exact List.nodup_nil
      · exact h.uses.nodup v
    · rintro u hu _ hu' rfl
      obtain ⟨hinst, -, -⟩ := mem_usesOf.mp hu'
      split at hu
      · cases hu
      · have hop := mem_uses_of_operand ((h.uses.mem v u).mp hu)
        rw [h.fresh u.inst (Nat.le_of_eq hinst.symm)] at hop
        cases hop
  · intro i hi
    rw [emit_insts_of_ne _ _ _ _ _ (Nat.ne_of_gt hi)]
    exact h.fresh i (Nat.le_of_succ_le hi)
  · intro x
    by_cases hx : x = b
    · subst hx
      rw [emit_blocks_self, List.nodup_append]
      refine ⟨h.nodup x, List.nodup_singleton _, ?_⟩
      rintro i hi _ hi' rfl
      rw [List.mem_singleton.mp hi'] at hi
      exact hnew hi
    · rw [emit_blocks_of_ne _ _ _ _ _ hx]
      exact h.nodup x
  · intro x i hi
    rcases (mem_blocks_emit _ _ _ _ _).mp hi with hi | ⟨rfl, rfl⟩
    · rw [emit_insts_of_ne _ _ _ _ _ (Nat.ne_of_lt (h.allocated x i hi))]
      exact h.parent x i hi
    · rw [emit_insts_self]
  · intro x i hi
    rcases (mem_blocks_emit _ _ _ _ _).mp hi with hi | ⟨-, rfl⟩
    · exact Nat.lt_succ_of_lt (h.allocated x i hi)
    · exact Nat.lt_succ_self _
  · intro u j hu
    rcases hoperand u _ hu with hu | hin | ⟨t, ht, -⟩
    · exact Nat.lt_succ_of_lt (h.operand u j hu)
    · exact Nat.lt_succ_of_lt (h.allocated b j hin.1)
    · cases ht
  · intro u t hu
    rcases hoperand u _ hu with hu | hin | ⟨_, ht, hlt, -⟩
    · exact h.block u t hu
    · exact absurd hin id
    · cases ht
      exact hlt
  · intro u c hu
    rcases hoperand u _ hu with hu | hin | ⟨t, ht, -⟩
    · exact h.const u c hu
    · exact hin
    · cases ht
  · intro x hx
    have hne : x ≠ b := Nat.ne_of_gt (Nat.lt_of_lt_of_le hb hx)
    rw [emit_blocks_of_ne _ _ _ _ _ hne]
    exact h.empty x hx

/-- **The heap stays closed.** -/
theorem Builds.heapClosed (h : Builds S T ir ir') (hheap : HeapClosed ir) : HeapClosed ir' := by
  induction h with
  | refl => exact hheap
  | const num _ ih => exact ih.const_new num
  | block _ ih => exact ih.block_new
  | emit dataType _ hb _ hmade _ ih => exact ih.emit_made dataType hb hmade

/-- What was made stays made. -/
theorem BlocksMade.mono_insts {base : ℕ} (h : BlocksMade base ir) (hheap : HeapClosed ir)
    (hext : Extends S ir ir') {b : ℕ} (hb : base ≤ b) {pre post : List ℕ} {i : ℕ}
    (hblock : ir.blocks b = pre ++ i :: post) :
    Made ir' pre (ir'.insts i).type (ir'.insts i).uses := by
  have hmem : ∀ j ∈ pre ++ i :: post, j < ir.instCount := fun j hj =>
    hheap.allocated b j (by rw [hblock]; exact hj)
  rw [hext.insts i (hmem i (by simp))]
  exact (h.made b hb pre i post hblock).mono hext fun j hj => hmem j (List.mem_append_left _ hj)

/-- **New blocks hold made instructions only.** -/
theorem Builds.blocksMade {base : ℕ} (h : Builds S T ir ir') (hheap : HeapClosed ir)
    (hblocks : BlocksMade base ir) : BlocksMade base ir' := by
  induction h with
  | refl => exact hblocks
  | @const ir' num hbuilds ih =>
      refine ⟨ih.sorted, fun b hb pre i post hblock => ?_⟩
      exact ih.mono_insts (hbuilds.heapClosed hheap) (extends_irConstantValue ir' num) hb hblock
  | @block ir' hbuilds ih =>
      have hheap' := hbuilds.heapClosed hheap
      refine ⟨fun b hb => ?_, fun b hb pre i post hblock => ?_⟩
      · rw [hheap'.blockNew_blocks]
        exact ih.sorted b hb
      · rw [hheap'.blockNew_blocks] at hblock
        exact ih.mono_insts hheap' (extends_blockNew ir') hb hblock
  | @emit ir' x type dataType uses hbuilds hx _ hmade _ ih =>
      have hheap' := hbuilds.heapClosed hheap
      have hext := extends_emit ir' x type dataType uses
      refine ⟨fun b hb => ?_, fun b hb pre i post hblock => ?_⟩
      · by_cases hbx : b = x
        · subst hbx
          rw [emit_blocks_self, List.pairwise_append]
          refine ⟨ih.sorted b hb, List.pairwise_singleton _ _, fun j hj k hk => ?_⟩
          rw [List.mem_singleton.mp hk]
          exact hheap'.allocated b j hj
        · rw [emit_blocks_of_ne _ _ _ _ _ hbx]
          exact ih.sorted b hb
      · by_cases hbx : b = x
        · subst hbx
          rw [emit_blocks_self] at hblock
          obtain rfl | ⟨init, last, rfl⟩ := List.eq_nil_or_concat post
          · -- the new instruction
            obtain ⟨rfl, hi⟩ := List.append_inj' hblock rfl
            obtain rfl := (List.cons.inj hi).1
            rw [emit_insts_self]
            exact hmade.mono hext fun j hj => hheap'.allocated b j hj
          · rw [List.concat_eq_append, ← List.cons_append, ← List.append_assoc] at hblock
            exact ih.mono_insts hheap' hext hb (List.append_inj' hblock rfl).1
        · rw [emit_blocks_of_ne _ _ _ _ _ hbx] at hblock
          exact ih.mono_insts hheap' hext hb hblock

end Heap

/-! ## Expressions -/

/-- An operand is still one when the block has grown. -/
theorem OperandIn.later {S T : ℕ → Prop} {ir ir' : Ir} {b : ℕ} {v : Value}
    (h : OperandIn ir (ir.blocks b) v) (hheap : HeapClosed ir) (hb : b < ir.blockCount)
    (hbuilds : Builds S T ir ir') : OperandIn ir' (ir'.blocks b) v :=
  h.mono hbuilds.grows (fun j hj => hheap.allocated b j hj)
    fun _ hj => (hbuilds.grows.blocks b hb).subset hj

/-- The code of an expression is built in the current block, and its value is an operand
there. -/
theorem createValue_builds (T : ℕ → Prop) {e : Expression} {c c' : IrCreator} {v : Value}
    (hb : c.block < c.ctx.blockCount) (hheap : HeapClosed c.ctx)
    (h : createValue c e.toAst = some (c', v)) :
    Builds (· = c.block) T c.ctx c'.ctx ∧ OperandIn c'.ctx (c'.ctx.blocks c.block) v := by
  induction e generalizing c c' v with
  | number num =>
      rw [Expression.toAst, createValue_number] at h
      cases h
      exact ⟨.const num .refl, Nat.lt_succ_self _⟩
  | var varName =>
      obtain ⟨var, -, hr⟩ := createValue_variable.mp h
      cases hr
      refine ⟨.emit _ .refl hb rfl (.load var.rId) (by simp), ?_, ?_⟩
      · exact (mem_blocks_emit _ _ _ _ _).mpr (.inr ⟨rfl, rfl⟩)
      · show (((c.ctx.emit c.block _ _ _).insts c.ctx.instCount).type.hasResult : Prop)
        rw [emit_insts_self]
        rfl
  | binary op left right ihl ihr =>
      obtain ⟨c₁, l, c₂, x, hl, hx, -, hr⟩ := createValue_binary.mp h
      cases hr
      have hleft := createValue_created hb hl
      obtain ⟨hbuilds₁, hl'⟩ := ihl hb hheap hl
      have hheap₁ := hbuilds₁.heapClosed hheap
      have hb₁ : c₁.block < c₁.ctx.blockCount := by
        rw [hleft.block, hleft.blockCount]
        exact hb
      have hright := createValue_created hb₁ hx
      obtain ⟨hbuilds₂, hx'⟩ := ihr hb₁ hheap₁ hx
      have hblock : c₂.block = c.block := hright.block.trans hleft.block
      have hb₂ : c₂.block < c₂.ctx.blockCount := by
        rw [hright.blockCount, hright.block]
        exact hb₁
      -- the value of the left operand is still in the block after the right one
      rw [← hleft.block] at hl'
      have hl₂ := hl'.later hheap₁ hb₁ hbuilds₂
      rw [← hright.block] at hl₂ hx'
      have hbuilds₂' : Builds (· = c.block) T c₁.ctx c₂.ctx :=
        hbuilds₂.mono (fun b hbc => hbc.trans hleft.block) fun _ ht => ht
      refine ⟨.emit _ (hbuilds₁.trans hbuilds₂') hb₂ hblock (.binary op hl₂ hx') ?_, ?_, ?_⟩
      · intro t ht
        rcases (Made.binary op hl₂ hx').operand ht with hin | ⟨_, -, -, hjump⟩
        · exact absurd hin id
        · cases hjump
      · exact (mem_blocks_emit _ _ _ _ _).mpr (.inr ⟨hblock.symm, rfl⟩)
      · show (((c₂.ctx.emit c₂.block _ _ _).insts c₂.ctx.instCount).type.hasResult : Prop)
        rw [emit_insts_self]
        rfl

/-! ## Statements -/

namespace IrCreator

/-- The current block and the blocks that are still to be made. -/
def Ahead (c : IrCreator) (b : ℕ) : Prop := b = c.block ∨ c.ctx.blockCount ≤ b

/-- The blocks that are still to be made. -/
def Unmade (c : IrCreator) (b : ℕ) : Prop := c.ctx.blockCount ≤ b

end IrCreator

theorem createAssignment_builds (T : ℕ → Prop) {c c₁ : IrCreator} {varName : Range}
    {e : Expression} (hb : c.block < c.ctx.blockCount) (hheap : HeapClosed c.ctx)
    (h : createAssignment c (.variable varName false) e.toAst = some c₁) :
    Builds (· = c.block) T c.ctx c₁.ctx := by
  obtain ⟨var, c₀, v, -, hv, rfl⟩ := createAssignment_eq_some.mp h
  have hval := createValue_created hb hv
  obtain ⟨hbuilds, hop⟩ := createValue_builds T hb hheap hv
  have hb₀ : c₀.block < c₀.ctx.blockCount := by
    rw [hval.block, hval.blockCount]
    exact hb
  rw [← hval.block] at hop
  refine .emit .void hbuilds hb₀ hval.block (.assign var.rId hop) fun t ht => ?_
  rcases (Made.assign var.rId hop).operand ht with hin | ⟨_, -, -, hjump⟩
  · exact absurd hin id
  · cases hjump

/-- The end of an `if`, after its body. -/
theorem endIf_builds {c inner : IrCreator} {v : Value} (hb : c.block < inner.ctx.blockCount)
    (hlast : inner.block < inner.ctx.blockCount) (hnew : c.ctx.blockCount < inner.ctx.blockCount)
    (hv : OperandIn inner.ctx (inner.ctx.blocks c.block) v) (hheap : HeapClosed inner.ctx) :
    Builds (fun b => b = c.block ∨ b = inner.block)
      (fun t => t = c.ctx.blockCount ∨ t = inner.ctx.blockCount) inner.ctx
      (c.endIf inner v).ctx := by
  have hblock : Builds (fun b => b = c.block ∨ b = inner.block)
      (fun t => t = c.ctx.blockCount ∨ t = inner.ctx.blockCount) inner.ctx
      (blockNew inner.ctx).1 := .block .refl
  have hrest : inner.ctx.blockCount < (blockNew inner.ctx).1.blockCount := Nat.lt_succ_self _
  refine .emit .void (.emit .void hblock (Nat.lt_succ_of_lt hb) (.inl rfl)
    (.jumpCond (Nat.lt_succ_of_lt hnew) hrest (hv.later hheap hb hblock)) ?_)
      (Nat.lt_succ_of_lt hlast) (.inr rfl) (.jump hrest) ?_
  · intro t ht
    simp only [List.mem_cons, Option.some.injEq, Value.block.injEq, List.not_mem_nil,
      or_false] at ht
    rcases ht with rfl | rfl | rfl
    · exact .inl rfl
    · exact .inr rfl
    · exact absurd hv id
  · intro t ht
    rw [List.mem_singleton, Option.some.injEq, Value.block.injEq] at ht
    exact .inr ht

/-- The start of a `while`. -/
theorem enterLoop_builds {c : IrCreator} (hb : c.block < c.ctx.blockCount) :
    Builds (· = c.block) (· = c.ctx.blockCount) c.ctx c.enterLoop.ctx := by
  refine .emit .void (.block .refl) (Nat.lt_succ_of_lt hb) rfl (.jump (Nat.lt_succ_self _)) ?_
  intro t ht
  rw [List.mem_singleton, Option.some.injEq, Value.block.injEq] at ht
  exact ht

/-- The jump back, and the block after the `while`. -/
theorem loopHead_builds (c inner : IrCreator)
    (hnew : c.ctx.blockCount + 1 < inner.ctx.blockCount) :
    Builds (· = c.ctx.blockCount + 1) (· = c.ctx.blockCount) inner.ctx
      (c.loopHead inner).ctx := by
  refine .block (.emit .void .refl hnew rfl (.jump (Nat.lt_of_succ_lt hnew)) ?_)
  intro t ht
  rw [List.mem_singleton, Option.some.injEq, Value.block.injEq] at ht
  exact ht

/-- The end of a `while`, after its condition. -/
theorem endLoop_builds (c inner : IrCreator) {c₁ : IrCreator} {v : Value}
    (hhead : c₁.block < c₁.ctx.blockCount) (hbody : c.ctx.blockCount + 1 < c₁.ctx.blockCount)
    (hexit : inner.ctx.blockCount < c₁.ctx.blockCount)
    (hv : OperandIn c₁.ctx (c₁.ctx.blocks c₁.block) v) :
    Builds (· = c₁.block) (fun t => t = c.ctx.blockCount + 1 ∨ t = inner.ctx.blockCount) c₁.ctx
      (c.endLoop inner c₁ v).ctx := by
  refine .emit .void .refl hhead rfl (.jumpCond hbody hexit hv) ?_
  intro t ht
  simp only [List.mem_cons, Option.some.injEq, Value.block.injEq, List.not_mem_nil, or_false] at ht
  rcases ht with rfl | rfl | rfl
  · exact .inl rfl
  · exact .inr rfl
  · exact absurd hv id

/-- The steps of an `if` : the condition, the body, and the jumps. -/
structure IfBuilt (c c₁ inner : IrCreator) (v : Value) : Prop where
  block : c₁.block = c.block
  blockCount : c₁.ctx.blockCount = c.ctx.blockCount
  value : Builds (· = c.block) (fun _ => False) c.ctx c₁.ctx
  enter_heap : HeapClosed c₁.enterBlock.ctx
  body : Builds c₁.enterBlock.Ahead c₁.enterBlock.Unmade c₁.enterBlock.ctx inner.ctx
  last : inner.block = c₁.ctx.blockCount ∨ c₁.ctx.blockCount < inner.block
  last_lt : inner.block < inner.ctx.blockCount
  count : c₁.ctx.blockCount < inner.ctx.blockCount
  finish : Builds (fun b => b = c₁.block ∨ b = inner.block)
    (fun t => t = c₁.ctx.blockCount ∨ t = inner.ctx.blockCount) inner.ctx (c₁.endIf inner v).ctx
  end_heap : HeapClosed (c₁.endIf inner v).ctx

theorem ifBuilt {c c₁ inner : IrCreator} {v : Value} {condition : Expression} {body : Statements}
    (hb : c.block < c.ctx.blockCount) (hheap : HeapClosed c.ctx)
    (hv : createValue c condition.toAst = some (c₁, v))
    (hinner : createStatements c₁.enterBlock body.toAst = some inner)
    (hbody : Builds c₁.enterBlock.Ahead c₁.enterBlock.Unmade c₁.enterBlock.ctx inner.ctx) :
    IfBuilt c c₁ inner v := by
  have hval := createValue_created hb hv
  obtain ⟨hvalue, hop⟩ := createValue_builds (fun _ => False) hb hheap hv
  have hheap₁ := hvalue.heapClosed hheap
  have hcreated := createStatements_created (c := c₁.enterBlock) (Nat.lt_succ_self _) hinner
  have hcount : c₁.ctx.blockCount + 1 ≤ inner.ctx.blockCount := hcreated.grows.blockCount
  have hlast : inner.block = c₁.ctx.blockCount ∨ c₁.ctx.blockCount + 1 ≤ inner.block :=
    hcreated.block_cases
  have hb₁ : c₁.block < c₁.ctx.blockCount := by
    rw [hval.block, hval.blockCount]
    exact hb
  have henter : HeapClosed c₁.enterBlock.ctx := hheap₁.block_new
  have hinner_heap := hbody.heapClosed henter
  -- the condition is in the current block, also after the body
  rw [← hval.block] at hop
  have hbuilds : Builds (fun _ => True) (fun _ => True) c₁.ctx inner.ctx :=
    (Builds.block .refl).trans (hbody.mono (fun _ _ => trivial) fun _ _ => trivial)
  have hfinish := endIf_builds (Nat.lt_of_lt_of_le hb₁ (Nat.le_of_succ_le hcount))
    hcreated.block_lt hcount (hop.later hheap₁ hb₁ hbuilds) hinner_heap
  exact ⟨hval.block, hval.blockCount, hvalue, henter, hbody, hlast, hcreated.block_lt, hcount,
    hfinish, hfinish.heapClosed hinner_heap⟩

/-- The steps of a `while` : the jump to the head, the body, the jump back, the condition, and
the conditional jump. -/
structure WhileBuilt (c inner c₁ : IrCreator) (v : Value) : Prop where
  start : Builds (· = c.block) (· = c.ctx.blockCount) c.ctx c.enterLoop.ctx
  enter_heap : HeapClosed c.enterLoop.enterBlock.ctx
  body : Builds c.enterLoop.enterBlock.Ahead c.enterLoop.enterBlock.Unmade
    c.enterLoop.enterBlock.ctx inner.ctx
  last : inner.block = c.ctx.blockCount + 1 ∨ c.ctx.blockCount + 1 < inner.block
  last_lt : inner.block < inner.ctx.blockCount
  count : c.ctx.blockCount + 1 < inner.ctx.blockCount
  back : Builds (· = c.ctx.blockCount + 1) (· = c.ctx.blockCount) inner.ctx (c.loopHead inner).ctx
  head_heap : HeapClosed (c.loopHead inner).ctx
  value : Builds (· = c.ctx.blockCount) (fun _ => False) (c.loopHead inner).ctx c₁.ctx
  head : c₁.block = c.ctx.blockCount
  blockCount : c₁.ctx.blockCount = inner.ctx.blockCount + 1
  finish : Builds (· = c.ctx.blockCount)
    (fun t => t = c.ctx.blockCount + 1 ∨ t = inner.ctx.blockCount) c₁.ctx (c.endLoop inner c₁ v).ctx
  end_heap : HeapClosed (c.endLoop inner c₁ v).ctx

theorem whileBuilt {c inner c₁ : IrCreator} {v : Value} {condition : Expression}
    {body : Statements} (hb : c.block < c.ctx.blockCount) (hheap : HeapClosed c.ctx)
    (hinner : createStatements c.enterLoop.enterBlock body.toAst = some inner)
    (hv : createValue (c.loopHead inner) condition.toAst = some (c₁, v))
    (hbody : Builds c.enterLoop.enterBlock.Ahead c.enterLoop.enterBlock.Unmade
      c.enterLoop.enterBlock.ctx inner.ctx) :
    WhileBuilt c inner c₁ v := by
  have hcreated := createStatements_created (c := c.enterLoop.enterBlock) (Nat.lt_succ_self _)
    hinner
  have hcount : c.ctx.blockCount + 2 ≤ inner.ctx.blockCount := hcreated.grows.blockCount
  have hlast : inner.block = c.ctx.blockCount + 1 ∨ c.ctx.blockCount + 2 ≤ inner.block :=
    hcreated.block_cases
  have hstart := enterLoop_builds hb
  have henter : HeapClosed c.enterLoop.enterBlock.ctx := (hstart.heapClosed hheap).block_new
  have hback := loopHead_builds c inner (by omega)
  have hhead_heap := hback.heapClosed (hbody.heapClosed henter)
  have hhead := hcreated.loopHead_lt
  have hval := createValue_created hhead hv
  obtain ⟨hvalue, hop⟩ := createValue_builds (fun _ => False) hhead hhead_heap hv
  have hblock : c₁.block = c.ctx.blockCount := hval.block
  have hcount₁ : c₁.ctx.blockCount = inner.ctx.blockCount + 1 := hval.blockCount
  rw [← hval.block] at hop
  have hfinish := endLoop_builds c inner (by rw [hblock]; omega) (by omega)
    (by omega) hop
  rw [hblock] at hfinish
  exact ⟨hstart, henter, hbody, hlast, hcreated.block_lt, hcount, hback, hhead_heap, hvalue,
    hblock, hcount₁, hfinish, hfinish.heapClosed (hvalue.heapClosed hhead_heap)⟩

theorem WhileBuilt.block_lt {c inner c₁ : IrCreator} {v : Value} (h : WhileBuilt c inner c₁ v) :
    (c.endLoop inner c₁ v).block < (c.endLoop inner c₁ v).ctx.blockCount := by
  show inner.ctx.blockCount < c₁.ctx.blockCount
  rw [h.blockCount]
  exact Nat.lt_succ_self _

/-- A statement that stays in its block: it appends instructions there, and none of them
jumps. -/
structure StaysIn (c c₁ : IrCreator) : Prop where
  block : c₁.block = c.block
  blockCount : c₁.ctx.blockCount = c.ctx.blockCount
  builds : ∀ T, Builds (· = c.block) T c.ctx c₁.ctx

namespace StaysIn

variable {c c₁ c' : IrCreator} (h : StaysIn c c₁)
include h

theorem block_lt (hb : c.block < c.ctx.blockCount) : c₁.block < c₁.ctx.blockCount := by
  rw [h.block, h.blockCount]
  exact hb

theorem heap (hheap : HeapClosed c.ctx) : HeapClosed c₁.ctx :=
  (h.builds fun _ => False).heapClosed hheap

/-- Statements behind it. -/
theorem statements (hrest : Builds c₁.Ahead c₁.Unmade c₁.ctx c'.ctx) :
    Builds c.Ahead c.Unmade c.ctx c'.ctx := by
  unfold IrCreator.Ahead IrCreator.Unmade at hrest ⊢
  rw [h.block, h.blockCount] at hrest
  exact ((h.builds _).mono (fun b hb => .inl hb) fun t ht => ht).trans hrest

end StaysIn

theorem staysIn_assignment {c c₁ : IrCreator} {varName : Range} {e : Expression}
    (hb : c.block < c.ctx.blockCount) (hheap : HeapClosed c.ctx)
    (h : createAssignment c (.variable varName false) e.toAst = some c₁) : StaysIn c c₁ := by
  obtain ⟨hsimple, -⟩ := createAssignment_created hb h
  exact ⟨hsimple.block, hsimple.blockCount, fun T => createAssignment_builds T hb hheap h⟩

theorem staysIn_declaration {c c₁ c₂ : IrCreator} {range varName : Range} {dataType : TokenType}
    {e : Expression} (hb : c.block < c.ctx.blockCount) (hheap : HeapClosed c.ctx)
    (hreg : createReg c range dataType = some c₁)
    (h : createAssignment c₁ (.variable varName false) e.toAst = some c₂) : StaysIn c c₂ := by
  obtain ⟨hblock, hctx, -⟩ := createReg_scopes hreg
  have hstays := staysIn_assignment (by rw [hblock, hctx]; exact hb) (hctx ▸ hheap) h
  refine ⟨hstays.block.trans hblock, by rw [hstays.blockCount, hctx], fun T => ?_⟩
  rw [← hblock, ← hctx]
  exact hstays.builds T

theorem staysIn_return {c : IrCreator} (hb : c.block < c.ctx.blockCount) :
    StaysIn c (c.emit .ret .void []) :=
  ⟨rfl, rfl, fun _ => .emit .void .refl hb rfl .ret fun _ ht => absurd ht List.not_mem_nil⟩

/-- **Statements.**  They append to the current block and to new blocks, and their jumps lead
to new blocks. -/
theorem createStatements_builds {ss : Statements} {c c' : IrCreator}
    (hb : c.block < c.ctx.blockCount) (hheap : HeapClosed c.ctx)
    (h : createStatements c ss.toAst = some c') : Builds c.Ahead c.Unmade c.ctx c'.ctx := by
  induction ss generalizing c c' with
  | done =>
      cases h
      exact .refl
  | assign varName value rest ih =>
      obtain ⟨c₁, hassign, hrest⟩ := createStatements_cons.mp h
      have hstays := staysIn_assignment hb hheap (createStatement_assign.mp hassign)
      exact hstays.statements (ih (hstays.block_lt hb) (hstays.heap hheap) hrest)
  | declare dataType op varName value rest ih =>
      obtain ⟨c₂, hdeclare, hrest⟩ := createStatements_cons.mp h
      obtain ⟨c₁, hreg, hassign⟩ := createStatement_declare.mp hdeclare
      have hstays := staysIn_declaration hb hheap hreg hassign
      exact hstays.statements (ih (hstays.block_lt hb) (hstays.heap hheap) hrest)
  | ifThen condition body rest ihbody ihrest =>
      obtain ⟨c₂, hif, hrest⟩ := createStatements_cons.mp h
      obtain ⟨c₁, v, inner, hv, hinner, rfl⟩ := createStatement_if.mp hif
      have hval := createValue_created hb hv
      have henter := ((createValue_builds c.Unmade hb hheap hv).1.heapClosed hheap).block_new
      have hbuilt := ifBuilt hb hheap hv hinner
        (ihbody (c := c₁.enterBlock) (Nat.lt_succ_self _) henter hinner)
      have hrest' := ihrest (c := c₁.endIf inner v) (Nat.lt_succ_self _) hbuilt.end_heap hrest
      have hcount := hbuilt.count
      have hlast := hbuilt.last
      rw [hbuilt.blockCount] at hcount hlast
      -- all blocks and targets of the steps are ahead of the start
      have hbody : Builds c.Ahead c.Unmade c₁.enterBlock.ctx inner.ctx := hbuilt.body.mono
        (fun b hb => by
          have h : b = c₁.ctx.blockCount ∨ c₁.ctx.blockCount + 1 ≤ b := hb
          rw [hbuilt.blockCount] at h
          exact .inr (by omega))
        fun t ht => by
          have h : c₁.ctx.blockCount + 1 ≤ t := ht
          rw [hbuilt.blockCount] at h
          exact Nat.le_of_succ_le h
      have hfinish : Builds c.Ahead c.Unmade inner.ctx (c₁.endIf inner v).ctx := hbuilt.finish.mono
        (fun b hb => by
          rcases hb with rfl | rfl
          · exact .inl hbuilt.block
          · exact .inr (by omega))
        fun t ht => by
          rw [hbuilt.blockCount] at ht
          show c.ctx.blockCount ≤ t
          omega
      have hrest'' : Builds c.Ahead c.Unmade (c₁.endIf inner v).ctx c'.ctx := hrest'.mono
        (fun b hb => by
          have h : b = inner.ctx.blockCount ∨ inner.ctx.blockCount + 1 ≤ b := hb
          exact .inr (by omega))
        fun t ht => by
          have h : inner.ctx.blockCount + 1 ≤ t := ht
          show c.ctx.blockCount ≤ t
          omega
      exact ((((hbuilt.value.mono (fun b hb => .inl hb) fun t ht => absurd ht id).trans
        (.block .refl)).trans hbody).trans hfinish).trans hrest''
  | whileDo condition body rest ihbody ihrest =>
      obtain ⟨c₂, hwhile, hrest⟩ := createStatements_cons.mp h
      obtain ⟨inner, c₁, v, hinner, hv, rfl⟩ := createStatement_while.mp hwhile
      have henter := ((enterLoop_builds hb).heapClosed hheap).block_new
      have hbuilt := whileBuilt hb hheap hinner hv
        (ihbody (c := c.enterLoop.enterBlock) (Nat.lt_succ_self _) henter hinner)
      have hcount := hbuilt.count
      have hcount₁ : (c.endLoop inner c₁ v).ctx.blockCount = inner.ctx.blockCount + 1 :=
        hbuilt.blockCount
      have hrest' := ihrest hbuilt.block_lt hbuilt.end_heap hrest
      have hstart : Builds c.Ahead c.Unmade c.ctx c.enterLoop.ctx := hbuilt.start.mono
        (fun b hb => .inl hb) fun t ht => Nat.le_of_eq ht.symm
      have hbody : Builds c.Ahead c.Unmade c.enterLoop.enterBlock.ctx inner.ctx :=
        hbuilt.body.mono
          (fun b hb => by
            have h : b = c.ctx.blockCount + 1 ∨ c.ctx.blockCount + 2 ≤ b := hb
            exact .inr (by omega))
          fun t ht => by
            have h : c.ctx.blockCount + 2 ≤ t := ht
            show c.ctx.blockCount ≤ t
            omega
      have hback : Builds c.Ahead c.Unmade inner.ctx (c.loopHead inner).ctx := hbuilt.back.mono
        (fun b hb => .inr (by omega)) fun t ht => Nat.le_of_eq ht.symm
      have hvalue : Builds c.Ahead c.Unmade (c.loopHead inner).ctx c₁.ctx := hbuilt.value.mono
        (fun b hb => .inr (by omega)) fun t ht => absurd ht id
      have hfinish : Builds c.Ahead c.Unmade c₁.ctx (c.endLoop inner c₁ v).ctx :=
        hbuilt.finish.mono (fun b hb => .inr (by omega)) fun t ht => by
          show c.ctx.blockCount ≤ t
          omega
      have hrest'' : Builds c.Ahead c.Unmade (c.endLoop inner c₁ v).ctx c'.ctx := hrest'.mono
        (fun b hb => by
          have h : b = inner.ctx.blockCount ∨ (c.endLoop inner c₁ v).ctx.blockCount ≤ b := hb
          exact .inr (by omega))
        fun t ht => by
          have h : (c.endLoop inner c₁ v).ctx.blockCount ≤ t := ht
          show c.ctx.blockCount ≤ t
          omega
      exact (((((hstart.trans (.block .refl)).trans hbody).trans hback).trans hvalue).trans
        hfinish).trans hrest''
  | ret rest ih =>
      obtain ⟨c₁, hret, hrest⟩ := createStatements_cons.mp h
      rw [createStatement_return] at hret
      cases hret
      have hstays := staysIn_return hb
      exact hstays.statements (ih (hstays.block_lt hb) (hstays.heap hheap) hrest)
  | other node hignored rest ih =>
      obtain ⟨c₁, hnode, hrest⟩ := createStatements_cons.mp h
      rw [createStatement_ignored c hignored] at hnode
      cases hnode
      exact ih hb hheap hrest

theorem createIf_built {c c₁ inner : IrCreator} {v : Value} {condition : Expression}
    {body : Statements} (hb : c.block < c.ctx.blockCount) (hheap : HeapClosed c.ctx)
    (hv : createValue c condition.toAst = some (c₁, v))
    (hinner : createStatements c₁.enterBlock body.toAst = some inner) : IfBuilt c c₁ inner v := by
  have henter := ((createValue_builds c.Unmade hb hheap hv).1.heapClosed hheap).block_new
  exact ifBuilt hb hheap hv hinner
    (createStatements_builds (c := c₁.enterBlock) (Nat.lt_succ_self _) henter hinner)

theorem createWhile_built {c inner c₁ : IrCreator} {v : Value} {condition : Expression}
    {body : Statements} (hb : c.block < c.ctx.blockCount) (hheap : HeapClosed c.ctx)
    (hinner : createStatements c.enterLoop.enterBlock body.toAst = some inner)
    (hv : createValue (c.loopHead inner) condition.toAst = some (c₁, v)) :
    WhileBuilt c inner c₁ v := by
  have henter := ((enterLoop_builds hb).heapClosed hheap).block_new
  exact whileBuilt hb hheap hinner hv
    (createStatements_builds (c := c.enterLoop.enterBlock) (Nat.lt_succ_self _) henter hinner)
