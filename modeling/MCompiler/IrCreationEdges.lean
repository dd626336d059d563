/-
# The edges of created functions

`Gate ir p lo hi` : the blocks from `lo` to `hi` are entered from the block `p` only.  The
blocks that statements make have the block before them as their gate
(`createStatements_gate`), and the gate dominates them.  A jump is the last instruction of
its block, or the block ends with the jump back of a `while` and the jump leads to blocks
behind a gate that is never passed (`createStatements_jumps`).
-/
import MCompiler.IrCreationBuilds
import MCompiler.Lib.Dominance

open FlowGraph

/-! ## Gates -/

/-- Jumps to the blocks from `lo` to `hi` stand in these blocks or in the earlier block `p`. -/
def Gate (ir : Ir) (p lo hi : ℕ) : Prop :=
  p < lo ∧ ∀ b, ∀ i ∈ ir.blocks b, ∀ t, some (.block t) ∈ (ir.insts i).uses →
    lo ≤ t → t < hi → b = p ∨ lo ≤ b ∧ b < hi

/-- `ir` is a later heap: statements have led from `c` to `c'`, and what has been made since
then neither changes the blocks that they have completed nor jumps to them. -/
def Later (c c' : IrCreator) (ir : Ir) : Prop :=
  Builds (fun b => b < c.ctx.blockCount ∨ b = c'.block ∨ c'.ctx.blockCount ≤ b)
    (fun t => t < c.ctx.blockCount ∨ c'.ctx.blockCount ≤ t) c'.ctx ir

/-- The instruction of an edge. -/
theorem exists_last_of_edge {ir : Ir} {a b : ℕ} (h : cfgEdge ir a b) :
    ∃ l i, ir.blocks a = l ++ [i] ∧ some (.block b) ∈ (ir.insts i).uses := by
  obtain ⟨u, hlast, -, hu⟩ := mem_blockSuccessors.mp h
  unfold blockLastInstruction at hlast
  obtain ⟨l, hl⟩ := List.getLast?_eq_some_iff.mp hlast
  exact ⟨l, u.inst, hl, mem_uses_of_operand hu⟩

section Gates

variable {ir : Ir} {entry p lo hi b : ℕ}

/-- **A gate dominates the blocks behind it.** -/
theorem Gate.strictlyDominates (h : Gate ir p lo hi) (hentry : entry < lo ∨ hi ≤ entry)
    (hlo : lo ≤ b) (hhi : b < hi) : StrictlyDominates (cfgEdge ir) entry p b := by
  refine ⟨Nat.ne_of_lt (Nat.lt_of_lt_of_le h.1 hlo), ?_⟩
  apply dominates_of_region (R := fun x => lo ≤ x ∧ x < hi) (by omega) ?_ ⟨hlo, hhi⟩
  intro a x hedge hx
  obtain ⟨l, i, hl, huse⟩ := exists_last_of_edge hedge
  exact h.2 a i (by rw [hl]; simp) x huse hx.1 hx.2

/-- If the last jump of the gate leads elsewhere, the blocks behind it are not reachable. -/
theorem Gate.not_reachable (h : Gate ir p lo hi) (hentry : entry < lo ∨ hi ≤ entry)
    {l : List ℕ} {i : ℕ} (hl : ir.blocks p = l ++ [i])
    (hout : ∀ t, some (.block t) ∈ (ir.insts i).uses → ¬ (lo ≤ t ∧ t < hi))
    (hlo : lo ≤ b) (hhi : b < hi) : ¬ Reachable (cfgEdge ir) entry b := by
  apply not_reachable_of_region (R := fun x => lo ≤ x ∧ x < hi) (by omega) ?_ ⟨hlo, hhi⟩
  intro a x hedge hx
  obtain ⟨l', i', hl', huse⟩ := exists_last_of_edge hedge
  rcases h.2 a i' (by rw [hl']; simp) x huse hx.1 hx.2 with rfl | ha
  · obtain ⟨-, hi'⟩ := List.append_inj' (hl'.symm.trans hl) rfl
    obtain rfl := List.singleton_inj.mp hi'
    exact absurd hx (hout x huse)
  · exact ha

end Gates

/-! ## Where instructions come from -/

namespace Builds

variable {S T S' T' : ℕ → Prop} {ir ir₁ ir' : Ir} {b i : ℕ}

/-- An instruction that is not new stands where it stood. -/
theorem mem_of_lt (h : Builds S T ir ir') (hi : i ∈ ir'.blocks b) (hlt : i < ir.instCount) :
    i ∈ ir.blocks b :=
  (h.mem_cases hi).resolve_right fun hnew => absurd hnew.1 (Nat.not_le_of_lt hlt)

/-- An instruction that was made by a part of the building. -/
theorem mem_between (h : Builds S T ir ir₁) (hheap : HeapClosed ir) (h' : Builds S' T' ir₁ ir')
    (hi : i ∈ ir'.blocks b) (hge : ir.instCount ≤ i) (hlt : i < ir₁.instCount) :
    S b ∧ ∀ t, some (.block t) ∈ (ir'.insts i).uses → T t := by
  have hi₁ := h'.mem_of_lt hi hlt
  rw [h'.grows.insts i hlt]
  rcases h.mem_cases hi₁ with hold | hnew
  · exact absurd (hheap.allocated b i hold) (Nat.not_lt_of_le hge)
  · exact hnew.2

/-- What follows the last instruction of a block was made later. -/
theorem after_last (h : Builds S T ir ir') (hheap : HeapClosed ir') (hb : b < ir.blockCount)
    {l pre post : List ℕ} (hlast : ir.blocks b = l ++ [i])
    (hblock : ir'.blocks b = pre ++ i :: post) {j : ℕ} (hj : j ∈ post) :
    ir.instCount ≤ j ∧ S b ∧ ∀ t, some (.block t) ∈ (ir'.insts j).uses → T t := by
  obtain ⟨more, hmore⟩ := h.grows.blocks b hb
  have hnodup := hheap.nodup b
  have hsplit : pre ++ i :: post = l ++ i :: more := by
    rw [← hblock, ← hmore, hlast, List.append_assoc]
    rfl
  -- the block has `i` only once
  have hpost : post = more := by
    rw [hblock, List.nodup_append, List.nodup_cons] at hnodup
    have hpre : i ∉ pre := fun hi => hnodup.2.2 i hi i List.mem_cons_self rfl
    exact ((List.append_cons_inj_of_notMem hpre hnodup.2.1.1).mp hsplit).2.2
  refine (h.mem_cases (b := b) (by rw [hblock]; simp [hj])).resolve_left fun hold => ?_
  rw [← hmore, List.nodup_append] at hnodup
  exact hnodup.2.2 j hold j (hpost ▸ hj) rfl

/-- The only new instruction of a block. -/
theorem eq_of_new (hheap : HeapClosed ir) {k : ℕ} (hblocks : ir'.blocks b = ir.blocks b ++ [k])
    (hi : i ∈ ir'.blocks b) (hge : ir.instCount ≤ i) : i = k := by
  rw [hblocks] at hi
  rcases List.mem_append.mp hi with hi | hi
  · exact absurd (hheap.allocated b i hi) (Nat.not_lt_of_le hge)
  · exact List.mem_singleton.mp hi

end Builds

/-! ## Parts of statements -/

/-- Blocks that were completed stay as they are. -/
theorem Later.blocks_eq {c c' : IrCreator} {ir : Ir} (h : Later c c' ir) {b : ℕ}
    (hge : c.ctx.blockCount ≤ b) (hne : b ≠ c'.block) (hlt : b < c'.ctx.blockCount) :
    ir.blocks b = c'.ctx.blocks b :=
  Extends.unchanged (Builds.grows h) b hlt (by omega)

theorem Later.any {c c' : IrCreator} {ir : Ir} (h : Later c c' ir) :
    Builds (fun _ => True) (fun _ => True) c'.ctx ir := Builds.any h

section Parts

variable {c c₁ inner c' : IrCreator} {v : Value} {ir : Ir}

theorem IfBuilt.later_rest (h : IfBuilt c c₁ inner v) (hlater : Later c c' ir) :
    Later (c₁.endIf inner v) c' ir := by
  have hcount := h.count
  rw [h.blockCount] at hcount
  apply Builds.mono hlater
  · intro b hb
    show b < inner.ctx.blockCount + 1 ∨ _
    omega
  · intro t ht
    show t < inner.ctx.blockCount + 1 ∨ _
    omega

theorem IfBuilt.later_body (h : IfBuilt c c₁ inner v) (hb : c.block < c.ctx.blockCount)
    (hrest : Builds (c₁.endIf inner v).Ahead (c₁.endIf inner v).Unmade (c₁.endIf inner v).ctx
      c'.ctx) (hcur : (c₁.endIf inner v).Ahead c'.block) (hlater : Later c c' ir) :
    Later c₁.enterBlock inner ir := by
  have hcount := h.count
  have hblockCount := h.blockCount
  have hblock := h.block
  have hcount' : inner.ctx.blockCount + 1 ≤ c'.ctx.blockCount := hrest.grows.blockCount
  have hcur' : c'.block = inner.ctx.blockCount ∨ inner.ctx.blockCount + 1 ≤ c'.block := hcur
  refine ((Builds.mono h.finish ?_ ?_).trans (Builds.mono hrest ?_ ?_)).trans
    (Builds.mono hlater ?_ ?_)
  · intro b hb'
    show b < c₁.ctx.blockCount + 1 ∨ _
    omega
  · intro t ht
    show t < c₁.ctx.blockCount + 1 ∨ _
    omega
  · intro b hb'
    have hb'' : b = inner.ctx.blockCount ∨ inner.ctx.blockCount + 1 ≤ b := hb'
    omega
  · intro t ht
    have ht' : inner.ctx.blockCount + 1 ≤ t := ht
    omega
  · intro b hb'
    show b < c₁.ctx.blockCount + 1 ∨ _
    omega
  · intro t ht
    show t < c₁.ctx.blockCount + 1 ∨ _
    omega

/-- What follows an `if` leaves the blocks up to its body as they are. -/
theorem IfBuilt.rest_blocks
    (hrest : Builds (c₁.endIf inner v).Ahead (c₁.endIf inner v).Unmade (c₁.endIf inner v).ctx
      c'.ctx) {b : ℕ} (hlt : b < inner.ctx.blockCount) :
    c'.ctx.blocks b = (c₁.endIf inner v).ctx.blocks b := by
  refine hrest.grows.unchanged b (Nat.lt_succ_of_lt hlt) ?_
  show ¬ (b = inner.ctx.blockCount ∨ inner.ctx.blockCount + 1 ≤ b)
  omega

theorem WhileBuilt.later_rest (h : WhileBuilt c inner c₁ v) (hlater : Later c c' ir) :
    Later (c.endLoop inner c₁ v) c' ir := by
  have hcount := h.count
  have hcount₁ : (c.endLoop inner c₁ v).ctx.blockCount = inner.ctx.blockCount + 1 := h.blockCount
  apply Builds.mono hlater
  · intro b hb
    rw [hcount₁]
    omega
  · intro t ht
    rw [hcount₁]
    omega

theorem WhileBuilt.later_body (h : WhileBuilt c inner c₁ v)
    (hrest : Builds (c.endLoop inner c₁ v).Ahead (c.endLoop inner c₁ v).Unmade
      (c.endLoop inner c₁ v).ctx c'.ctx) (hcur : (c.endLoop inner c₁ v).Ahead c'.block)
    (hlater : Later c c' ir) : Later c.enterLoop.enterBlock inner ir := by
  have hcount := h.count
  have hcount₁ : (c.endLoop inner c₁ v).ctx.blockCount = inner.ctx.blockCount + 1 := h.blockCount
  have hcount' := hrest.grows.blockCount
  unfold IrCreator.Ahead at hcur
  rw [hcount₁] at hcount' hcur
  have hcur' : c'.block = inner.ctx.blockCount ∨ inner.ctx.blockCount + 1 ≤ c'.block := hcur
  have henter : c.enterLoop.enterBlock.ctx.blockCount = c.ctx.blockCount + 2 := rfl
  unfold Later
  rw [henter]
  refine ((((Builds.mono h.back ?_ ?_).trans (Builds.mono h.value ?_ ?_)).trans
    (Builds.mono h.finish ?_ ?_)).trans (Builds.mono hrest ?_ ?_)).trans (Builds.mono hlater ?_ ?_)
  · intro b hb
    omega
  · intro t ht
    omega
  · intro b hb
    omega
  · exact fun t ht => absurd ht id
  · intro b hb
    omega
  · intro t ht
    omega
  · intro b hb
    unfold IrCreator.Ahead at hb
    rw [hcount₁] at hb
    have hb' : b = inner.ctx.blockCount ∨ inner.ctx.blockCount + 1 ≤ b := hb
    omega
  · intro t ht
    unfold IrCreator.Unmade at ht
    omega
  · intro b hb
    omega
  · intro t ht
    omega

/-- What follows a `while` leaves the blocks up to its body as they are. -/
theorem WhileBuilt.rest_blocks (h : WhileBuilt c inner c₁ v)
    (hrest : Builds (c.endLoop inner c₁ v).Ahead (c.endLoop inner c₁ v).Unmade
      (c.endLoop inner c₁ v).ctx c'.ctx) {b : ℕ} (hlt : b < inner.ctx.blockCount) :
    c'.ctx.blocks b = (c.endLoop inner c₁ v).ctx.blocks b := by
  have hcount₁ : (c.endLoop inner c₁ v).ctx.blockCount = inner.ctx.blockCount + 1 := h.blockCount
  refine hrest.grows.unchanged b (by omega) ?_
  unfold IrCreator.Ahead
  rw [hcount₁]
  show ¬ (b = inner.ctx.blockCount ∨ inner.ctx.blockCount + 1 ≤ b)
  omega

/-- Only the head of a `while` changes after the jump back. -/
theorem WhileBuilt.head_blocks (h : WhileBuilt c inner c₁ v)
    (hrest : Builds (c.endLoop inner c₁ v).Ahead (c.endLoop inner c₁ v).Unmade
      (c.endLoop inner c₁ v).ctx c'.ctx) {b : ℕ} (hlt : b < inner.ctx.blockCount)
    (hne : b ≠ c.ctx.blockCount) : c'.ctx.blocks b = (c.loopHead inner).ctx.blocks b := by
  have hlt₁ : b < c₁.ctx.blockCount := h.blockCount ▸ Nat.lt_succ_of_lt hlt
  rw [h.rest_blocks hrest hlt, h.finish.grows.unchanged b hlt₁ hne,
    h.value.grows.unchanged b (Nat.lt_succ_of_lt hlt) hne]

end Parts

/-! ## The gate of statements -/

/-- **The block before statements is the gate of the blocks that they make.** -/
theorem createStatements_gate {ss : Statements} {c c' : IrCreator} {ir : Ir}
    (hb : c.block < c.ctx.blockCount) (hheap : HeapClosed c.ctx)
    (h : createStatements c ss.toAst = some c') (hlater : Later c c' ir) :
    Gate ir c.block c.ctx.blockCount c'.ctx.blockCount := by
  have hbuilds := createStatements_builds hb hheap h
  have hheap' := hbuilds.heapClosed hheap
  refine ⟨hb, fun b i hi t ht hlo hhi => ?_⟩
  rcases Builds.mem_cases hlater hi with hold | ⟨-, -, htargets⟩
  · rw [(Builds.grows hlater).insts i (hheap'.allocated b i hold)] at ht
    rcases hbuilds.mem_cases hold with hold' | ⟨-, hahead, -⟩
    · -- before the statements there was no such block
      rw [hbuilds.grows.insts i (hheap.allocated b i hold')] at ht
      obtain ⟨k, hk⟩ := List.mem_iff_getElem?.mp ht
      exact absurd (hheap.block ⟨i, k⟩ t (Ir.operand_eq_some.mpr hk)) (Nat.not_lt_of_le hlo)
    · rcases hahead with rfl | hge
      · exact .inl rfl
      · refine .inr ⟨hge, ?_⟩
        by_contra hlt
        rw [hheap'.empty b (Nat.le_of_not_lt hlt)] at hold
        cases hold
  · rcases htargets t ht with hlt | hge <;> omega

/-! ## Jumps -/

/-- The jump to `t` in the block `b` is not the last instruction: `post` follows it and ends
with the jump back of a `while`, and `t` is a block behind `b`. -/
def Overwritten (ir : Ir) (b t : ℕ) (post : List ℕ) : Prop :=
  ∃ init j lo hi, post = init ++ [j] ∧ (ir.insts j).type = .jump ∧
    (∀ x, some (.block x) ∈ (ir.insts j).uses → ¬ (lo ≤ x ∧ x < hi)) ∧ lo ≤ t ∧ t < hi ∧
    Gate ir b lo hi

/-- What is said of the jumps among the instructions from `i₀` to `i₁`. -/
def JumpsLast (ir : Ir) (i₀ i₁ : ℕ) : Prop :=
  ∀ b pre i post t, ir.blocks b = pre ++ i :: post → i₀ ≤ i → i < i₁ →
    some (.block t) ∈ (ir.insts i).uses → post = [] ∨ Overwritten ir b t post

theorem JumpsLast.trans {ir : Ir} {i₀ i₁ i₂ : ℕ} (h : JumpsLast ir i₀ i₁)
    (h' : JumpsLast ir i₁ i₂) : JumpsLast ir i₀ i₂ := by
  intro b pre i post t hblock hge hlt ht
  by_cases hi : i < i₁
  · exact h b pre i post t hblock hge hi ht
  · exact h' b pre i post t hblock (Nat.le_of_not_lt hi) hlt ht

section Jumps

variable {S T S' T' : ℕ → Prop} {ir ir₁ ir' : Ir}

/-- Instructions that do not jump. -/
theorem Builds.jumpsLast_of_none (h : Builds S (fun _ => False) ir ir₁) (hheap : HeapClosed ir)
    (h' : Builds S' T' ir₁ ir') : JumpsLast ir' ir.instCount ir₁.instCount := by
  intro b pre i post t hblock hge hlt ht
  exact absurd ((h.mem_between hheap h' (by rw [hblock]; simp) hge hlt).2 t ht) id

variable {c c₁ c' : IrCreator} {b k : ℕ} {l : List ℕ}

theorem Later.of_stays (h : Later c c' ir) (hstays : StaysIn c c₁) : Later c₁ c' ir := by
  unfold Later
  rw [hstays.blockCount]
  exact h

/-- A statement that stays in its block does not jump. -/
theorem StaysIn.jumpsLast (h : StaysIn c c₁) (hheap : HeapClosed c.ctx)
    (hrest : Builds c₁.Ahead c₁.Unmade c₁.ctx c'.ctx) (hlater : Later c c' ir) :
    JumpsLast ir c.ctx.instCount c₁.ctx.instCount :=
  (h.builds _).jumpsLast_of_none hheap (hrest.any.trans hlater.any)

/-- The last instruction of a completed block. -/
theorem Later.last_of_completed (h : Later c c' ir) (hheap : HeapClosed ir)
    (hge : c.ctx.blockCount ≤ b) (hne : b ≠ c'.block) (hlt : b < c'.ctx.blockCount)
    (hlast : c'.ctx.blocks b = l ++ [k]) {pre post : List ℕ}
    (hblock : ir.blocks b = pre ++ k :: post) : post = [] := by
  rw [List.eq_nil_iff_forall_not_mem]
  intro j hj
  obtain ⟨-, hb, -⟩ := Builds.after_last h hheap hlt hlast hblock hj
  omega

/-- What follows the jump at the end of the block before statements. -/
theorem Later.overwritten (h : Later c c' ir) (hheap : HeapClosed ir)
    (hgate : Gate ir c.block c.ctx.blockCount c'.ctx.blockCount)
    (htail : ∀ j ∈ ir.blocks c.block, c'.ctx.instCount ≤ j → (ir.insts j).type = .jump)
    (hlt : c.block < c'.ctx.blockCount) (hlast : c'.ctx.blocks c.block = l ++ [k])
    {pre post : List ℕ} (hblock : ir.blocks c.block = pre ++ k :: post) {t : ℕ}
    (hlo : c.ctx.blockCount ≤ t) (hhi : t < c'.ctx.blockCount) :
    post = [] ∨ Overwritten ir c.block t post := by
  obtain rfl | ⟨init, j, rfl⟩ := List.eq_nil_or_concat post
  · exact .inl rfl
  · rw [List.concat_eq_append] at hblock ⊢
    obtain ⟨hnew, -, hout⟩ := Builds.after_last h hheap hlt hlast hblock (j := j) (by simp)
    refine .inr ⟨init, j, _, _, rfl, htail j (by rw [hblock]; simp) hnew, fun x hx => ?_, hlo, hhi,
      hgate⟩
    have := hout x hx
    omega

/-- The jumps of a part, from the place where they stand. -/
theorem Builds.jumpsLast (h : Builds S T ir ir₁) (hheap : HeapClosed ir)
    (h' : Builds S' T' ir₁ ir')
    (hjump : ∀ b, S b → ∀ i ∈ ir₁.blocks b, ir.instCount ≤ i → ∀ pre post t,
      ir'.blocks b = pre ++ i :: post → T t → post = [] ∨ Overwritten ir' b t post) :
    JumpsLast ir' ir.instCount ir₁.instCount := by
  intro b pre i post t hblock hge hlt ht
  have hi : i ∈ ir'.blocks b := mem_of_split hblock
  obtain ⟨hS, hT⟩ := h.mem_between hheap h' hi hge hlt
  exact hjump b hS i (h'.mem_of_lt hi hlt) hge pre post t hblock (hT t ht)

end Jumps

/-! ## The jumps of statements -/

theorem endIf_blocks (c inner : IrCreator) (v : Value) (hne : c.block ≠ inner.block)
    (hb : c.block < inner.ctx.blockCount) (hlast : inner.block < inner.ctx.blockCount) :
    (c.endIf inner v).ctx.blocks c.block = inner.ctx.blocks c.block ++ [inner.ctx.instCount] ∧
      (c.endIf inner v).ctx.blocks inner.block =
        inner.ctx.blocks inner.block ++ [inner.ctx.instCount + 1] := by
  unfold IrCreator.endIf
  constructor
  · dsimp only
    rw [emit_blocks_of_ne _ _ _ _ _ hne, emit_blocks_self,
      blockNew_blocks_of_ne _ (Nat.ne_of_lt hb)]
    rfl
  · dsimp only
    rw [emit_blocks_self, emit_blocks_of_ne _ _ _ _ _ hne.symm,
      blockNew_blocks_of_ne _ (Nat.ne_of_lt hlast)]
    rfl

theorem enterLoop_blocks {c : IrCreator} (hb : c.block < c.ctx.blockCount) :
    c.enterLoop.ctx.blocks c.block = c.ctx.blocks c.block ++ [c.ctx.instCount] := by
  unfold IrCreator.enterLoop
  rw [emit_blocks_self, blockNew_blocks_of_ne _ (Nat.ne_of_lt hb)]
  rfl

theorem loopHead_blocks {c inner : IrCreator} (hcount : c.ctx.blockCount + 1 < inner.ctx.blockCount) :
    (c.loopHead inner).ctx.blocks (c.ctx.blockCount + 1) =
      inner.ctx.blocks (c.ctx.blockCount + 1) ++ [inner.ctx.instCount] ∧
    ((c.loopHead inner).ctx.insts inner.ctx.instCount).type = .jump := by
  have henter : c.enterLoop.ctx.blockCount = c.ctx.blockCount + 1 := rfl
  unfold IrCreator.loopHead
  dsimp only
  rw [henter]
  constructor
  · rw [blockNew_blocks_of_ne (inner.ctx.emit (c.ctx.blockCount + 1) .jump .void
      [some (.block c.ctx.blockCount)]) (Nat.ne_of_lt hcount), emit_blocks_self]
  · rw [blockNew_insts, emit_insts_self]

theorem endLoop_blocks (c inner c₁ : IrCreator) (v : Value) :
    (c.endLoop inner c₁ v).ctx.blocks c₁.block = c₁.ctx.blocks c₁.block ++ [c₁.ctx.instCount] :=
  emit_blocks_self _ _ _ _ _

/-- An `if` ends its block with the conditional jump, and the last block of its body with the
other one. -/
theorem IfBuilt.end_blocks {c c₁ inner c' : IrCreator} {v : Value} (h : IfBuilt c c₁ inner v)
    (hb : c.block < c.ctx.blockCount)
    (hrest : Builds (c₁.endIf inner v).Ahead (c₁.endIf inner v).Unmade (c₁.endIf inner v).ctx
      c'.ctx) : c'.ctx.blocks c.block = inner.ctx.blocks c.block ++ [inner.ctx.instCount] ∧
      c'.ctx.blocks inner.block = inner.ctx.blocks inner.block ++ [inner.ctx.instCount + 1] := by
  have hcount := h.count
  have hlast := h.last
  have hblock := h.block
  have hblockCount := h.blockCount
  obtain ⟨hfirst, hsecond⟩ := endIf_blocks c₁ inner v (by omega) (by omega) h.last_lt
  have hend := (IfBuilt.rest_blocks hrest (show c₁.block < _ by omega)).trans hfirst
  rw [hblock] at hend
  exact ⟨hend, (IfBuilt.rest_blocks hrest h.last_lt).trans hsecond⟩

/-- A `while` ends its block with the jump to the head, and the head with the conditional
jump. -/
theorem WhileBuilt.end_blocks {c inner c₁ c' : IrCreator} {v : Value}
    (h : WhileBuilt c inner c₁ v) (hb : c.block < c.ctx.blockCount)
    (hrest : Builds (c.endLoop inner c₁ v).Ahead (c.endLoop inner c₁ v).Unmade
      (c.endLoop inner c₁ v).ctx c'.ctx) :
    c'.ctx.blocks c.block = c.ctx.blocks c.block ++ [c.ctx.instCount] ∧
      c'.ctx.blocks c.ctx.blockCount = c₁.ctx.blocks c.ctx.blockCount ++ [c₁.ctx.instCount] := by
  have hcount := h.count
  have hbody_same : inner.ctx.blocks c.block = c.enterLoop.ctx.blocks c.block := by
    have henter : c.enterLoop.enterBlock.ctx.blocks c.block = c.enterLoop.ctx.blocks c.block :=
      blockNew_blocks_of_ne c.enterLoop.ctx (show c.block ≠ c.ctx.blockCount + 1 by omega)
    refine (h.body.grows.unchanged c.block ?_ ?_).trans henter
    · show c.block < c.ctx.blockCount + 2
      omega
    · show ¬ (c.block = c.ctx.blockCount + 1 ∨ c.ctx.blockCount + 2 ≤ c.block)
      omega
  constructor
  · exact (((h.head_blocks hrest (by omega) (by omega)).trans
      (h.back.grows.unchanged c.block (by omega) (by omega))).trans hbody_same).trans
        (enterLoop_blocks hb)
  · have hfirst := endLoop_blocks c inner c₁ v
    rw [h.head] at hfirst
    exact (h.rest_blocks hrest (show c.ctx.blockCount < _ by omega)).trans hfirst

/-- The jumps of an `if`, apart from those of its body. -/
theorem IfBuilt.jumpsLast {c c₁ inner c' : IrCreator} {v : Value} {ir : Ir}
    (h : IfBuilt c c₁ inner v) (hb : c.block < c.ctx.blockCount)
    (hrest : Builds (c₁.endIf inner v).Ahead (c₁.endIf inner v).Unmade (c₁.endIf inner v).ctx
      c'.ctx) (hcur : (c₁.endIf inner v).Ahead c'.block) (hlater : Later c c' ir)
    (hheap : HeapClosed ir) (hgate : Gate ir c.block c.ctx.blockCount c'.ctx.blockCount)
    (htail : ∀ j ∈ ir.blocks c.block, c'.ctx.instCount ≤ j → (ir.insts j).type = .jump) :
    JumpsLast ir inner.ctx.instCount (c₁.endIf inner v).ctx.instCount := by
  have hcount := h.count
  have hlast := h.last
  have hblock := h.block
  have hblockCount := h.blockCount
  have hlast_lt := h.last_lt
  have hcount' : inner.ctx.blockCount + 1 ≤ c'.ctx.blockCount := hrest.grows.blockCount
  have hcur' : c'.block = inner.ctx.blockCount ∨ inner.ctx.blockCount + 1 ≤ c'.block := hcur
  obtain ⟨hfirst, hsecond⟩ := endIf_blocks c₁ inner v (by omega) (by omega) hlast_lt
  have hinner := h.body.heapClosed h.enter_heap
  apply h.finish.jumpsLast hinner (hrest.any.trans hlater.any)
  intro b hS i hi hge pre post t hsplit ht
  rcases hS with rfl | rfl
  · rw [Builds.eq_of_new hinner hfirst hi hge] at hsplit
    have hend := (h.end_blocks hb hrest).1
    rw [hblock] at hsplit ⊢
    exact hlater.overwritten hheap hgate htail (by omega) hend hsplit (by omega) (by omega)
  · rw [Builds.eq_of_new hinner hsecond hi hge] at hsplit
    have hend := (h.end_blocks hb hrest).2
    exact .inl (hlater.last_of_completed hheap (by omega) (by omega) (by omega) hend hsplit)

/-- The jumps of a `while`, apart from those of its body: the one to the head, the jump back,
and the conditional one. -/
theorem WhileBuilt.jumpsLast {c inner c₁ c' : IrCreator} {v : Value} {ir : Ir}
    (h : WhileBuilt c inner c₁ v) (hb : c.block < c.ctx.blockCount) (hheap₀ : HeapClosed c.ctx)
    (hrest : Builds (c.endLoop inner c₁ v).Ahead (c.endLoop inner c₁ v).Unmade
      (c.endLoop inner c₁ v).ctx c'.ctx) (hcur : (c.endLoop inner c₁ v).Ahead c'.block)
    (hlater : Later c c' ir) (hheap : HeapClosed ir)
    (hgate : Gate ir c.block c.ctx.blockCount c'.ctx.blockCount)
    (htail : ∀ j ∈ ir.blocks c.block, c'.ctx.instCount ≤ j → (ir.insts j).type = .jump) :
    JumpsLast ir c.ctx.instCount c.enterLoop.ctx.instCount ∧
      JumpsLast ir inner.ctx.instCount (c.endLoop inner c₁ v).ctx.instCount := by
  have hcount := h.count
  have hcount₁ : (c.endLoop inner c₁ v).ctx.blockCount = inner.ctx.blockCount + 1 := h.blockCount
  have hcount' := hrest.grows.blockCount
  unfold IrCreator.Ahead at hcur
  rw [hcount₁] at hcount' hcur
  have hcur' : c'.block = inner.ctx.blockCount ∨ inner.ctx.blockCount + 1 ≤ c'.block := hcur
  have hinner := h.body.heapClosed h.enter_heap
  have hheap₁ := h.value.heapClosed h.head_heap
  have hend := hrest.any.trans hlater.any
  have hvalue := (h.value.any.trans h.finish.any).trans hend
  have hloop : Builds (fun _ => True) (fun _ => True) c.enterLoop.ctx ir :=
    (((Builds.block .refl).trans h.body.any).trans h.back.any).trans hvalue
  have hback := loopHead_blocks hcount
  constructor
  · -- the jump to the head
    apply h.start.jumpsLast hheap₀ hloop
    rintro b rfl i hi hge pre post t hsplit rfl
    have hfirst := enterLoop_blocks hb
    rw [Builds.eq_of_new hheap₀ hfirst hi hge] at hsplit
    have hend' := (h.end_blocks hb hrest).1
    exact hlater.overwritten hheap hgate htail (by omega) hend' hsplit (Nat.le_refl _) (by omega)
  · have hjump : JumpsLast ir inner.ctx.instCount (c.loopHead inner).ctx.instCount := by
      -- the jump back
      apply h.back.jumpsLast hinner hvalue
      rintro b rfl i hi hge pre post t hsplit -
      rw [Builds.eq_of_new hinner hback.1 hi hge] at hsplit
      have hend' := (h.head_blocks hrest hcount (by omega)).trans hback.1
      exact .inl (hlater.last_of_completed hheap (by omega) (by omega) (by omega) hend' hsplit)
    have hcond := h.value.jumpsLast_of_none h.head_heap
      (h.finish.any.trans hend)
    have hcjump : JumpsLast ir c₁.ctx.instCount (c.endLoop inner c₁ v).ctx.instCount := by
      apply h.finish.jumpsLast hheap₁ hend
      rintro b rfl i hi hge pre post t hsplit -
      have hfirst := endLoop_blocks c inner c₁ v
      rw [h.head] at hfirst
      rw [Builds.eq_of_new hheap₁ hfirst hi hge] at hsplit
      have hend' := (h.end_blocks hb hrest).2
      exact .inl (hlater.last_of_completed hheap (Nat.le_refl _) (by omega) (by omega) hend' hsplit)
    exact hjump.trans (hcond.trans hcjump)

section Tails

variable {c c₁ inner c' : IrCreator} {v : Value} {ir : Ir}

/-- Only jumps are appended to the first block of statements after them, if it is not also
their last one. -/
def JumpsBehind (ir : Ir) (c c' : IrCreator) : Prop :=
  c'.block ≠ c.block → ∀ j ∈ ir.blocks c.block, c'.ctx.instCount ≤ j → (ir.insts j).type = .jump

/-- Nothing is appended to the first block of statements after them, if it is not also their
last one. -/
def NothingBehind (ir : Ir) (c c' : IrCreator) : Prop :=
  c'.block ≠ c.block → ∀ j ∈ ir.blocks c.block, j < c'.ctx.instCount

theorem NothingBehind.jumpsBehind (h : NothingBehind ir c c') : JumpsBehind ir c c' :=
  fun hne j hj hge => absurd (h hne j hj) (Nat.not_lt_of_le hge)

/-- Nothing is appended to the first block of the body of an `if`. -/
theorem IfBuilt.nothingBehind_body (h : IfBuilt c c₁ inner v) (hb : c.block < c.ctx.blockCount)
    (hrest : Builds (c₁.endIf inner v).Ahead (c₁.endIf inner v).Unmade (c₁.endIf inner v).ctx
      c'.ctx) (hcur : (c₁.endIf inner v).Ahead c'.block) (hlater : Later c c' ir) :
    NothingBehind ir c₁.enterBlock inner := by
  intro hne j hj
  have hcount := h.count
  have hblockCount := h.blockCount
  have hblock := h.block
  have hcount' : inner.ctx.blockCount + 1 ≤ c'.ctx.blockCount := hrest.grows.blockCount
  have hcur' : c'.block = inner.ctx.blockCount ∨ inner.ctx.blockCount + 1 ≤ c'.block := hcur
  have hne' : inner.block ≠ c₁.ctx.blockCount := hne
  have hj' : j ∈ ir.blocks c₁.ctx.blockCount := hj
  rw [hlater.blocks_eq (by omega) (by omega) (by omega), IfBuilt.rest_blocks hrest hcount,
    h.finish.grows.unchanged _ hcount (by omega)] at hj'
  exact (h.body.heapClosed h.enter_heap).allocated _ j hj'

theorem IfBuilt.jumpsBehind_body (h : IfBuilt c c₁ inner v) (hb : c.block < c.ctx.blockCount)
    (hrest : Builds (c₁.endIf inner v).Ahead (c₁.endIf inner v).Unmade (c₁.endIf inner v).ctx
      c'.ctx) (hcur : (c₁.endIf inner v).Ahead c'.block) (hlater : Later c c' ir) :
    JumpsBehind ir c₁.enterBlock inner :=
  (h.nothingBehind_body hb hrest hcur hlater).jumpsBehind

/-- Only the jump back is appended to the first block of the body of a `while`. -/
theorem WhileBuilt.jumpsBehind_body (h : WhileBuilt c inner c₁ v)
    (hrest : Builds (c.endLoop inner c₁ v).Ahead (c.endLoop inner c₁ v).Unmade
      (c.endLoop inner c₁ v).ctx c'.ctx) (hcur : (c.endLoop inner c₁ v).Ahead c'.block)
    (hlater : Later c c' ir) : JumpsBehind ir c.enterLoop.enterBlock inner := by
  intro hne j hj hge
  have hcount := h.count
  have hcount₁ : (c.endLoop inner c₁ v).ctx.blockCount = inner.ctx.blockCount + 1 := h.blockCount
  have hcount' := hrest.grows.blockCount
  unfold IrCreator.Ahead at hcur
  rw [hcount₁] at hcount' hcur
  have hcur' : c'.block = inner.ctx.blockCount ∨ inner.ctx.blockCount + 1 ≤ c'.block := hcur
  have hj' : j ∈ ir.blocks (c.ctx.blockCount + 1) := hj
  have hback := loopHead_blocks hcount
  have hall := ((h.value.any.trans h.finish.any).trans hrest.any).trans hlater.any
  rw [hlater.blocks_eq (by omega) (by omega) (by omega),
    h.head_blocks hrest hcount (by omega)] at hj'
  have hjlt := h.head_heap.allocated _ j hj'
  rw [Builds.eq_of_new (h.body.heapClosed h.enter_heap) hback.1 hj' hge] at hjlt ⊢
  rw [hall.grows.insts _ hjlt]
  exact hback.2

/-- Nothing is appended to the block at the end of an `if` or a `while`. -/
theorem Later.nothingBehind_of_new (hlater : Later c c' ir) (hheap : HeapClosed c'.ctx)
    (hge : c.ctx.blockCount ≤ c₁.block) (hlt : c₁.block < c'.ctx.blockCount) :
    NothingBehind ir c₁ c' := by
  intro hne j hj
  rw [hlater.blocks_eq hge hne.symm hlt] at hj
  exact hheap.allocated _ j hj

theorem Later.jumpsBehind_of_new (hlater : Later c c' ir) (hheap : HeapClosed c'.ctx)
    (hge : c.ctx.blockCount ≤ c₁.block) (hlt : c₁.block < c'.ctx.blockCount) :
    JumpsBehind ir c₁ c' :=
  (hlater.nothingBehind_of_new hheap hge hlt).jumpsBehind

theorem NothingBehind.of_stays (h : NothingBehind ir c c') (hstays : StaysIn c c₁) :
    NothingBehind ir c₁ c' := by
  unfold NothingBehind
  rw [hstays.block]
  exact h

theorem JumpsBehind.of_stays (h : JumpsBehind ir c c') (hstays : StaysIn c c₁) :
    JumpsBehind ir c₁ c' := by
  unfold JumpsBehind
  rw [hstays.block]
  exact h

end Tails

/-- **The jumps of statements.**  A jump is the last instruction of its block, or the block
ends with the jump back of a `while`. -/
theorem createStatements_jumps {ss : Statements} {c c' : IrCreator} {ir : Ir}
    (hb : c.block < c.ctx.blockCount) (hheap : HeapClosed c.ctx)
    (h : createStatements c ss.toAst = some c') (hlater : Later c c' ir)
    (htail : JumpsBehind ir c c') : JumpsLast ir c.ctx.instCount c'.ctx.instCount := by
  have hheap' : HeapClosed ir :=
    Builds.heapClosed hlater ((createStatements_builds hb hheap h).heapClosed hheap)
  induction ss generalizing c c' with
  | done =>
      cases h
      exact fun b pre i post t _ hge hlt => absurd hlt (Nat.not_lt_of_le hge)
  | assign varName value rest ih =>
      obtain ⟨c₁, hassign, hrest⟩ := createStatements_cons.mp h
      have hstays := staysIn_assignment hb hheap (createStatement_assign.mp hassign)
      have hb₁ := hstays.block_lt hb
      have hheap₁ := hstays.heap hheap
      have hrest' := createStatements_builds hb₁ hheap₁ hrest
      exact (hstays.jumpsLast hheap hrest' hlater).trans
        (ih hb₁ hheap₁ hrest (hlater.of_stays hstays) (htail.of_stays hstays))
  | declare dataType op varName value rest ih =>
      obtain ⟨c₂, hdeclare, hrest⟩ := createStatements_cons.mp h
      obtain ⟨c₁, hreg, hassign⟩ := createStatement_declare.mp hdeclare
      have hstays := staysIn_declaration hb hheap hreg hassign
      have hb₂ := hstays.block_lt hb
      have hheap₂ := hstays.heap hheap
      have hrest' := createStatements_builds hb₂ hheap₂ hrest
      exact (hstays.jumpsLast hheap hrest' hlater).trans
        (ih hb₂ hheap₂ hrest (hlater.of_stays hstays) (htail.of_stays hstays))
  | ifThen condition body rest ihbody ihrest =>
      have hgate := createStatements_gate hb hheap h hlater
      have hmade := (createStatements_builds hb hheap h).heapClosed hheap
      obtain ⟨c₂, hif, hrest⟩ := createStatements_cons.mp h
      obtain ⟨c₁, v, inner, hv, hinner, rfl⟩ := createStatement_if.mp hif
      have hbuilt := createIf_built hb hheap hv hinner
      have hb₂ : (c₁.endIf inner v).block < (c₁.endIf inner v).ctx.blockCount := Nat.lt_succ_self _
      have hrest' := createStatements_builds hb₂ hbuilt.end_heap hrest
      have hcur : (c₁.endIf inner v).Ahead c'.block :=
        (createStatements_created hb₂ hrest).block_cases
      have hlater₁ := hbuilt.later_body hb hrest' hcur hlater
      have hcount := hbuilt.count
      have hblockCount := hbuilt.blockCount
      have hcur' : c'.block = inner.ctx.blockCount ∨ inner.ctx.blockCount + 1 ≤ c'.block := hcur
      have hnew : c.ctx.blockCount ≤ (c₁.endIf inner v).block := by
        show c.ctx.blockCount ≤ inner.ctx.blockCount
        omega
      have hvalue := hbuilt.value.jumpsLast_of_none hheap
        ((Builds.block .refl).trans (hbuilt.body.any.trans hlater₁.any))
      have hjumps₁ := ihbody (c := c₁.enterBlock) (Nat.lt_succ_self _) hbuilt.enter_heap hinner
        hlater₁ (hbuilt.jumpsBehind_body hb hrest' hcur hlater)
      have hjumps₂ := hbuilt.jumpsLast hb hrest' hcur hlater hheap' hgate (htail (by omega))
      have hjumps₃ := ihrest hb₂ hbuilt.end_heap hrest (hbuilt.later_rest hlater)
        (hlater.jumpsBehind_of_new hmade hnew hrest'.grows.blockCount)
      exact hvalue.trans (JumpsLast.trans hjumps₁ (hjumps₂.trans hjumps₃))
  | whileDo condition body rest ihbody ihrest =>
      have hgate := createStatements_gate hb hheap h hlater
      have hmade := (createStatements_builds hb hheap h).heapClosed hheap
      obtain ⟨c₂, hwhile, hrest⟩ := createStatements_cons.mp h
      obtain ⟨inner, c₁, v, hinner, hv, rfl⟩ := createStatement_while.mp hwhile
      have hbuilt := createWhile_built hb hheap hinner hv
      have hrest' := createStatements_builds hbuilt.block_lt hbuilt.end_heap hrest
      have hcur : (c.endLoop inner c₁ v).Ahead c'.block :=
        (createStatements_created hbuilt.block_lt hrest).block_cases
      have hcount := hbuilt.count
      have hcur' : c'.block = inner.ctx.blockCount ∨
          (c.endLoop inner c₁ v).ctx.blockCount ≤ c'.block := hcur
      have hlt : inner.ctx.blockCount < (c.endLoop inner c₁ v).ctx.blockCount := hbuilt.block_lt
      have hnew : c.ctx.blockCount ≤ (c.endLoop inner c₁ v).block := by
        show c.ctx.blockCount ≤ inner.ctx.blockCount
        omega
      obtain ⟨hjumps₀, hjumps₂⟩ := hbuilt.jumpsLast hb hheap hrest' hcur hlater hheap' hgate
        (htail (by omega))
      have hjumps₁ := ihbody (c := c.enterLoop.enterBlock) (Nat.lt_succ_self _) hbuilt.enter_heap
        hinner (hbuilt.later_body hrest' hcur hlater) (hbuilt.jumpsBehind_body hrest' hcur hlater)
      have hjumps₃ := ihrest hbuilt.block_lt hbuilt.end_heap hrest (hbuilt.later_rest hlater)
        (hlater.jumpsBehind_of_new hmade hnew (Nat.lt_of_lt_of_le hlt hrest'.grows.blockCount))
      exact hjumps₀.trans (JumpsLast.trans hjumps₁ (hjumps₂.trans hjumps₃))
  | ret rest ih =>
      obtain ⟨c₁, hret, hrest⟩ := createStatements_cons.mp h
      rw [createStatement_return] at hret
      cases hret
      have hstays := staysIn_return hb
      have hb₁ := hstays.block_lt hb
      have hheap₁ := hstays.heap hheap
      have hrest' := createStatements_builds hb₁ hheap₁ hrest
      exact (hstays.jumpsLast hheap hrest' hlater).trans (ih hb₁ hheap₁ hrest hlater htail)
  | other node hignored rest ih =>
      obtain ⟨c₁, hnode, hrest⟩ := createStatements_cons.mp h
      rw [createStatement_ignored c hignored] at hnode
      cases hnode
      exact ih hb hheap hrest hlater htail
