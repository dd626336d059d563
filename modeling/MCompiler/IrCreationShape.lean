/-
# The control flow graph of created functions

A block that statements make is entered first from a strict dominator, and it is not
reachable without the other blocks that jump to it (`createStatements_entered`).  So the
graph of a created function has the shape that `dominators.c` assumes (`createdShape`).
-/
import MCompiler.IrCreationForm
import MCompiler.DominatorsCorrect

open FlowGraph

/-! ## Uses of blocks -/

namespace Builds

variable {S T : ℕ → Prop} {ir ir' : Ir}

/-- The use list of a block to which nothing jumps stays as it is. -/
theorem uses_block (h : Builds S T ir ir') {t : ℕ} (ht : t < ir.blockCount) (hT : ¬ T t) :
    ir'.uses (.block t) = ir.uses (.block t) := by
  induction h with
  | refl => rfl
  | @const ir' num _ ih =>
      rw [← ih]
      show Function.update ir'.uses (.const ir'.constCount) [] (.block t) = _
      rw [Function.update_of_ne (by simp)]
  | @block ir' hbuilds ih =>
      rw [← ih]
      have hne : t ≠ ir'.blockCount := Nat.ne_of_lt (Nat.lt_of_lt_of_le ht hbuilds.grows.blockCount)
      show Function.update ir'.uses (.block ir'.blockCount) [] (.block t) = _
      rw [Function.update_of_ne (by simpa using hne)]
  | @emit ir' b type dataType uses _ _ _ _ hTt ih =>
      have hnone : usesOf ir'.instCount (.block t) 0 uses = [] := by
        rw [List.eq_nil_iff_forall_not_mem]
        intro u hu
        exact hT (hTt t (List.mem_of_getElem? (mem_usesOf.mp hu).2.2))
      rw [emit_uses, hnone, List.append_nil, if_neg (by simp), ih]

/-- A new instruction stands in its block. -/
theorem mem_parent (h : Builds S T ir ir') (hheap : HeapClosed ir) {i : ℕ}
    (hge : ir.instCount ≤ i) (hlt : i < ir'.instCount) :
    i ∈ ir'.blocks (ir'.insts i).parent := by
  induction h with
  | refl => exact absurd hlt (Nat.not_lt_of_le hge)
  | const num _ ih => exact ih hlt
  | @block ir' hbuilds ih =>
      rw [(hbuilds.heapClosed hheap).blockNew_blocks]
      exact ih hlt
  | @emit ir' b type dataType uses _ _ _ _ _ ih =>
      by_cases hi : i = ir'.instCount
      · rw [hi, emit_insts_self, emit_blocks_self]
        simp
      · rw [emit_insts_of_ne _ _ _ _ _ hi]
        have hlt' : i < ir'.instCount := Nat.lt_of_le_of_ne (Nat.le_of_lt_succ hlt) hi
        exact (mem_blocks_emit _ _ _ _ _).mpr (.inl (ih hlt'))

end Builds

/-! ## Edges -/

section Edges

variable {ir : Ir} {entry a b i : ℕ} {l : List ℕ}

theorem cfgEdge_of_last (hl : ir.blocks a = l ++ [i]) (hphi : (ir.insts i).type ≠ .phi)
    (ht : some (.block b) ∈ (ir.insts i).uses) : cfgEdge ir a b := by
  obtain ⟨k, hk⟩ := List.mem_iff_getElem?.mp ht
  refine mem_blockSuccessors.mpr ⟨⟨i, k⟩, ?_, hphi, Ir.operand_eq_some.mpr hk⟩
  rw [blockLastInstruction, hl, List.getLast?_concat]

/-- A jump to a reachable block is the last instruction of its block. -/
theorem JumpsLast.last {i₀ i₁ : ℕ} (h : JumpsLast ir i₀ i₁) (ha : entry ≤ a)
    (hi : i ∈ ir.blocks a) (hge : i₀ ≤ i) (hlt : i < i₁)
    (ht : some (.block b) ∈ (ir.insts i).uses) (hb : Reachable (cfgEdge ir) entry b) :
    ∃ l, ir.blocks a = l ++ [i] := by
  obtain ⟨pre, post, hblock⟩ := List.append_of_mem hi
  rcases h a pre i post b hblock hge hlt ht with rfl | ⟨init, j, lo, hi', rfl, -, hout, hlo, hhi, hgate⟩
  · exact ⟨pre, hblock⟩
  · have hentry : entry < lo := Nat.lt_of_le_of_lt ha hgate.1
    rw [← List.cons_append, ← List.append_assoc] at hblock
    exact absurd hb (hgate.not_reachable (.inl hentry) hblock hout hlo hhi)

/-- A block with a single use is entered from the block of the use only. -/
theorem strictlyDominates_of_single {u : Use} (hheap : HeapClosed ir) (hentry : b ≠ entry)
    (huses : ir.uses (.block b) = [u]) (hne : (ir.insts u.inst).parent ≠ b) :
    StrictlyDominates (cfgEdge ir) entry (ir.insts u.inst).parent b := by
  refine ⟨hne, dominates_of_region (R := (· = b)) (Ne.symm hentry) ?_ rfl⟩
  rintro a x hedge rfl
  obtain ⟨u', hlast, -, hu'⟩ := mem_blockSuccessors.mp hedge
  have hmem := (hheap.uses.mem _ u').mpr hu'
  rw [huses, List.mem_singleton] at hmem
  subst hmem
  exact .inl (hheap.parent a _ (List.mem_of_getLast? hlast)).symm

end Edges

/-! ## The blocks of an `if` and of a `while` -/

section Parts

variable {c c₁ inner c' : IrCreator} {v : Value} {ir : Ir}

theorem blockNew_uses_self (ir : Ir) : (blockNew ir).1.uses (.block ir.blockCount) = [] :=
  Function.update_self _ _ _

/-- The jumps of an `if`. -/
structure IfJumps (ir : Ir) (c c₁ inner : IrCreator) (v : Value) : Prop where
  cond : ir.insts inner.ctx.instCount = ⟨.jumpCond, .void,
    [some (.block c₁.ctx.blockCount), some (.block inner.ctx.blockCount), some v], c.block⟩
  leave : ir.insts (inner.ctx.instCount + 1) =
    ⟨.jump, .void, [some (.block inner.ctx.blockCount)], inner.block⟩
  body_uses : ir.uses (.block c₁.ctx.blockCount) = [⟨inner.ctx.instCount, 0⟩]
  rest_uses : ir.uses (.block inner.ctx.blockCount) =
    [⟨inner.ctx.instCount, 1⟩, ⟨inner.ctx.instCount + 1, 0⟩]

theorem IfBuilt.ifJumps (h : IfBuilt c c₁ inner v) (hv : ∀ t, v ≠ .block t)
    (hrest : Builds (c₁.endIf inner v).Ahead (c₁.endIf inner v).Unmade (c₁.endIf inner v).ctx
      c'.ctx) (hlater : Later c c' ir) : IfJumps ir c c₁ inner v := by
  have hcount := h.count
  have hblockCount := h.blockCount
  have hcount' : inner.ctx.blockCount + 1 ≤ c'.ctx.blockCount := hrest.grows.blockCount
  have hafter : Builds (fun _ => True) (fun _ => True) (c₁.endIf inner v).ctx ir :=
    hrest.any.trans hlater.any
  -- nothing jumps to the two blocks after the end of the `if`
  have hlast : ∀ t, t ≤ inner.ctx.blockCount → c.ctx.blockCount ≤ t →
      ir.uses (.block t) = (c₁.endIf inner v).ctx.uses (.block t) := by
    intro t ht hge
    rw [Builds.uses_block hlater (by omega) (by omega),
      hrest.uses_block (t := t) (Nat.lt_succ_of_le ht) (Nat.not_le_of_lt (Nat.lt_succ_of_le ht))]
  have hbody : inner.ctx.uses (.block c₁.ctx.blockCount) = [] := by
    rw [h.body.uses_block (Nat.lt_succ_self _) (Nat.not_succ_le_self _)]
    exact blockNew_uses_self _
  have hne : c₁.ctx.blockCount ≠ inner.ctx.blockCount := Nat.ne_of_lt hcount
  refine ⟨?_, ?_, ?_, ?_⟩
  · rw [hafter.grows.insts _ (show _ < inner.ctx.instCount + 2 by omega), ← h.block]
    unfold IrCreator.endIf
    rw [emit_insts_of_ne _ _ _ _ _ (Nat.ne_of_lt (Nat.lt_succ_self _))]
    exact emit_insts_self _ _ _ _ _
  · rw [hafter.grows.insts _ (show _ < inner.ctx.instCount + 2 by omega)]
    exact emit_insts_self _ _ _ _ _
  · rw [hlast _ (Nat.le_of_lt hcount) (Nat.le_of_eq hblockCount.symm)]
    unfold IrCreator.endIf
    simp only [emit_uses, usesOf]
    have hnew : (blockNew inner.ctx).1.uses (.block c₁.ctx.blockCount) = [] := by
      rw [← hbody]
      exact Builds.uses_block (S := fun _ => True) (T := fun _ => False) (.block .refl) hcount id
    simp [hnew, hne.symm, hv]
  · rw [hlast _ (Nat.le_refl _) (by omega)]
    unfold IrCreator.endIf
    simp only [emit_uses, usesOf]
    simp [blockNew_uses_self, hne, hv]

/-- The jumps of a `while`. -/
structure WhileJumps (ir : Ir) (c inner c₁ : IrCreator) (v : Value) : Prop where
  start : ir.insts c.ctx.instCount =
    ⟨.jump, .void, [some (.block c.ctx.blockCount)], c.block⟩
  back : ir.insts inner.ctx.instCount =
    ⟨.jump, .void, [some (.block c.ctx.blockCount)], c.ctx.blockCount + 1⟩
  cond : ir.insts c₁.ctx.instCount = ⟨.jumpCond, .void,
    [some (.block (c.ctx.blockCount + 1)), some (.block inner.ctx.blockCount), some v],
    c.ctx.blockCount⟩
  head_uses : ir.uses (.block c.ctx.blockCount) =
    [⟨c.ctx.instCount, 0⟩, ⟨inner.ctx.instCount, 0⟩]
  body_uses : ir.uses (.block (c.ctx.blockCount + 1)) = [⟨c₁.ctx.instCount, 0⟩]
  rest_uses : ir.uses (.block inner.ctx.blockCount) = [⟨c₁.ctx.instCount, 1⟩]

theorem WhileBuilt.whileJumps (h : WhileBuilt c inner c₁ v) (hv : ∀ t, v ≠ .block t)
    (hrest : Builds (c.endLoop inner c₁ v).Ahead (c.endLoop inner c₁ v).Unmade
      (c.endLoop inner c₁ v).ctx c'.ctx) (hlater : Later c c' ir) :
    WhileJumps ir c inner c₁ v := by
  have hcount := h.count
  have hcount₁ : (c.endLoop inner c₁ v).ctx.blockCount = inner.ctx.blockCount + 1 := h.blockCount
  have hcount' := hrest.grows.blockCount
  have hb₁ : c₁.ctx.blockCount = inner.ctx.blockCount + 1 := h.blockCount
  have hafter : Builds (fun _ => True) (fun _ => True) (c.endLoop inner c₁ v).ctx ir :=
    hrest.any.trans hlater.any
  have hlast : ∀ t, t ≤ inner.ctx.blockCount → c.ctx.blockCount ≤ t →
      ir.uses (.block t) = (c.endLoop inner c₁ v).ctx.uses (.block t) := by
    intro t ht hge
    rw [Builds.uses_block hlater (by omega) (by omega), hrest.uses_block (t := t) (by omega)]
    show ¬ (c.endLoop inner c₁ v).ctx.blockCount ≤ t
    omega
  have hcond : Builds (fun _ => True) (fun _ => True) c₁.ctx ir := h.finish.any.trans hafter
  have hback : Builds (fun _ => True) (fun _ => True) (c.loopHead inner).ctx ir :=
    h.value.any.trans hcond
  have hstart : Builds (fun _ => True) (fun _ => True) c.enterLoop.ctx ir :=
    (((Builds.block .refl).trans h.body.any).trans h.back.any).trans hback
  -- the uses before the condition
  have henter : ∀ t, t ≤ c.ctx.blockCount + 1 →
      inner.ctx.uses (.block t) = c.enterLoop.enterBlock.ctx.uses (.block t) := fun t ht =>
    h.body.uses_block (t := t) (Nat.lt_succ_of_le ht) (Nat.not_le_of_lt (Nat.lt_succ_of_le ht))
  have hvalue : ∀ t, t ≤ inner.ctx.blockCount →
      c₁.ctx.uses (.block t) = (c.loopHead inner).ctx.uses (.block t) := fun t ht =>
    h.value.uses_block (t := t) (Nat.lt_succ_of_le ht) id
  have hne : c.ctx.blockCount + 1 ≠ inner.ctx.blockCount := Nat.ne_of_lt hcount
  refine ⟨?_, ?_, ?_, ?_, ?_, ?_⟩
  · rw [hstart.grows.insts c.ctx.instCount (Nat.lt_succ_self _)]
    exact emit_insts_self _ _ _ _ _
  · rw [hback.grows.insts _ (Nat.lt_succ_self _)]
    exact emit_insts_self _ _ _ _ _
  · rw [hafter.grows.insts c₁.ctx.instCount (Nat.lt_succ_self _)]
    refine (emit_insts_self _ _ _ _ _).trans ?_
    rw [h.head]
    rfl
  · rw [hlast _ (by omega) (Nat.le_refl _), h.finish.uses_block (by omega) (by omega),
      hvalue _ (by omega)]
    have hnew : inner.ctx.uses (.block c.ctx.blockCount) = [⟨c.ctx.instCount, 0⟩] := by
      rw [henter _ (Nat.le_succ _)]
      have hblock : c.enterLoop.enterBlock.ctx.uses (.block c.ctx.blockCount) =
          c.enterLoop.ctx.uses (.block c.ctx.blockCount) :=
        Builds.uses_block (S := fun _ => True) (T := fun _ => False) (.block .refl)
          (Nat.lt_succ_self _) id
      rw [hblock]
      unfold IrCreator.enterLoop
      rw [emit_uses, if_neg (by simp), blockNew_uses_self]
      simp [usesOf]
    have hjump : (c.loopHead inner).ctx.uses (.block c.ctx.blockCount) =
        (inner.ctx.emit c.enterLoop.ctx.blockCount .jump .void
          [some (.block c.ctx.blockCount)]).uses (.block c.ctx.blockCount) :=
      Builds.uses_block (S := fun _ => True) (T := fun _ => False) (.block .refl)
        (Nat.lt_of_succ_lt hcount) id
    rw [hjump, emit_uses, if_neg (by simp), hnew]
    simp [usesOf]
  · rw [hlast _ (Nat.le_of_lt hcount) (Nat.le_succ _)]
    have hnew : c₁.ctx.uses (.block (c.ctx.blockCount + 1)) = [] := by
      rw [hvalue _ (Nat.le_of_lt hcount), h.back.uses_block hcount (Nat.succ_ne_self _),
        henter _ (Nat.le_refl _)]
      exact blockNew_uses_self _
    unfold IrCreator.endLoop IrCreator.emit
    dsimp only
    rw [emit_uses, if_neg (by simp), hnew]
    have henterLoop : c.enterLoop.ctx.blockCount = c.ctx.blockCount + 1 := rfl
    simp [usesOf, henterLoop, hne.symm, hv]
  · rw [hlast _ (Nat.le_refl _) (by omega)]
    have hnew : c₁.ctx.uses (.block inner.ctx.blockCount) = [] := by
      rw [hvalue _ (Nat.le_refl _)]
      exact blockNew_uses_self _
    unfold IrCreator.endLoop IrCreator.emit
    dsimp only
    rw [emit_uses, if_neg (by simp), hnew]
    have henterLoop : c.enterLoop.ctx.blockCount = c.ctx.blockCount + 1 := rfl
    simp [usesOf, henterLoop, hne, hv]

theorem OperandIn.ne_block {pre : List ℕ} (h : OperandIn ir pre v) (t : ℕ) : v ≠ .block t := by
  rintro rfl
  exact h

theorem createIf_jumps {condition : Expression} {body : Statements}
    (hb : c.block < c.ctx.blockCount) (hheap : HeapClosed c.ctx)
    (hv : createValue c condition.toAst = some (c₁, v))
    (hinner : createStatements c₁.enterBlock body.toAst = some inner)
    (hrest : Builds (c₁.endIf inner v).Ahead (c₁.endIf inner v).Unmade (c₁.endIf inner v).ctx
      c'.ctx) (hlater : Later c c' ir) : IfJumps ir c c₁ inner v :=
  (createIf_built hb hheap hv hinner).ifJumps
    (createValue_builds (fun _ => False) hb hheap hv).2.ne_block hrest hlater

theorem createWhile_jumps {condition : Expression} {body : Statements}
    (hb : c.block < c.ctx.blockCount) (hheap : HeapClosed c.ctx)
    (hinner : createStatements c.enterLoop.enterBlock body.toAst = some inner)
    (hv : createValue (c.loopHead inner) condition.toAst = some (c₁, v))
    (hrest : Builds (c.endLoop inner c₁ v).Ahead (c.endLoop inner c₁ v).Unmade
      (c.endLoop inner c₁ v).ctx c'.ctx) (hlater : Later c c' ir) :
    WhileJumps ir c inner c₁ v := by
  have hbuilt := createWhile_built hb hheap hinner hv
  have hhead := (createStatements_created (c := c.enterLoop.enterBlock) (Nat.lt_succ_self _)
    hinner).loopHead_lt
  exact hbuilt.whileJumps
    (createValue_builds (fun _ => False) hhead hbuilt.head_heap hv).2.ne_block hrest hlater

end Parts

/-! ## Blocks that are reached -/

/-- A block to which nothing is appended stays as it is. -/
theorem Builds.blocks_eq {S T : ℕ → Prop} {ir ir' : Ir} (h : Builds S T ir ir')
    (hheap : HeapClosed ir') {b : ℕ} (hb : b < ir.blockCount)
    (hold : ∀ j ∈ ir'.blocks b, j < ir.instCount) : ir'.blocks b = ir.blocks b := by
  obtain ⟨more, hmore⟩ := h.grows.blocks b hb
  have hnodup := hheap.nodup b
  rw [← hmore, List.nodup_append] at hnodup
  have hnil : more = [] := by
    rw [List.eq_nil_iff_forall_not_mem]
    intro j hj
    have hmem : j ∈ ir'.blocks b := hmore ▸ List.mem_append_right _ hj
    exact hnodup.2.2 j (h.mem_of_lt hmem (hold j hmem)) j hj rfl
  rw [← hmore, hnil, List.append_nil]

section Reached

variable {c c₁ inner c' : IrCreator} {v : Value} {ir : Ir} {entry : ℕ}

/-- The first block of statements, when everything has been made. -/
theorem NothingBehind.blocks_eq (h : NothingBehind ir c c') (hne : c'.block ≠ c.block)
    (hheap : HeapClosed ir) (hlater : Later c c' ir) (hb : c.block < c'.ctx.blockCount) :
    ir.blocks c.block = c'.ctx.blocks c.block :=
  Builds.blocks_eq hlater hheap hb (h hne)

/-- **Statements are left.**  If the block before statements is reachable, the block after them
is. -/
theorem createStatements_reaches {ss : Statements} (hb : c.block < c.ctx.blockCount)
    (hheap : HeapClosed c.ctx) (h : createStatements c ss.toAst = some c')
    (hlater : Later c c' ir) (hnothing : NothingBehind ir c c')
    (hreach : Reachable (cfgEdge ir) entry c.block) : Reachable (cfgEdge ir) entry c'.block := by
  have hheap' : HeapClosed ir :=
    Builds.heapClosed hlater ((createStatements_builds hb hheap h).heapClosed hheap)
  induction ss generalizing c c' with
  | done =>
      cases h
      exact hreach
  | assign varName value rest ih =>
      obtain ⟨c₁, hassign, hrest⟩ := createStatements_cons.mp h
      have hstays := staysIn_assignment hb hheap (createStatement_assign.mp hassign)
      exact ih (hstays.block_lt hb) (hstays.heap hheap) hrest (hlater.of_stays hstays)
        (hnothing.of_stays hstays) (hstays.block ▸ hreach)
  | declare dataType op varName value rest ih =>
      obtain ⟨c₂, hdeclare, hrest⟩ := createStatements_cons.mp h
      obtain ⟨c₁, hreg, hassign⟩ := createStatement_declare.mp hdeclare
      have hstays := staysIn_declaration hb hheap hreg hassign
      exact ih (hstays.block_lt hb) (hstays.heap hheap) hrest (hlater.of_stays hstays)
        (hnothing.of_stays hstays) (hstays.block ▸ hreach)
  | ifThen condition body rest ihbody ihrest =>
      have hmade := (createStatements_builds hb hheap h).heapClosed hheap
      obtain ⟨c₂, hif, hrest⟩ := createStatements_cons.mp h
      obtain ⟨c₁, v, inner, hv, hinner, rfl⟩ := createStatement_if.mp hif
      have hbuilt := createIf_built hb hheap hv hinner
      have hb₂ : (c₁.endIf inner v).block < (c₁.endIf inner v).ctx.blockCount := Nat.lt_succ_self _
      have hrest' := createStatements_builds hb₂ hbuilt.end_heap hrest
      have hcur : (c₁.endIf inner v).Ahead c'.block :=
        (createStatements_created hb₂ hrest).block_cases
      have hcur' : c'.block = inner.ctx.blockCount ∨ inner.ctx.blockCount + 1 ≤ c'.block := hcur
      have hcount := hbuilt.count
      have hblockCount := hbuilt.blockCount
      have hcount' : inner.ctx.blockCount + 1 ≤ c'.ctx.blockCount := hrest'.grows.blockCount
      have hnew : c.ctx.blockCount ≤ (c₁.endIf inner v).block := by
        show c.ctx.blockCount ≤ inner.ctx.blockCount
        omega
      have hjumps := createIf_jumps hb hheap hv hinner hrest' hlater
      -- the block ends with the conditional jump
      have hlast := (hnothing.blocks_eq (by omega) hheap' hlater (by omega)).trans
        (hbuilt.end_blocks hb hrest').1
      have hedge : cfgEdge ir c.block inner.ctx.blockCount := by
        apply cfgEdge_of_last hlast <;> rw [hjumps.cond] <;> simp
      exact ihrest hb₂ hbuilt.end_heap hrest (hbuilt.later_rest hlater)
        (hlater.nothingBehind_of_new hmade hnew hrest'.grows.blockCount) (hreach.step hedge)
  | whileDo condition body rest ihbody ihrest =>
      have hmade := (createStatements_builds hb hheap h).heapClosed hheap
      obtain ⟨c₂, hwhile, hrest⟩ := createStatements_cons.mp h
      obtain ⟨inner, c₁, v, hinner, hv, rfl⟩ := createStatement_while.mp hwhile
      have hbuilt := createWhile_built hb hheap hinner hv
      have hrest' := createStatements_builds hbuilt.block_lt hbuilt.end_heap hrest
      have hcur : (c.endLoop inner c₁ v).Ahead c'.block :=
        (createStatements_created hbuilt.block_lt hrest).block_cases
      have hcount := hbuilt.count
      have hlt : inner.ctx.blockCount < (c.endLoop inner c₁ v).ctx.blockCount := hbuilt.block_lt
      have hcount' := hrest'.grows.blockCount
      have hcur' : c'.block = inner.ctx.blockCount ∨
          (c.endLoop inner c₁ v).ctx.blockCount ≤ c'.block := hcur
      have hnew : c.ctx.blockCount ≤ (c.endLoop inner c₁ v).block := by
        show c.ctx.blockCount ≤ inner.ctx.blockCount
        omega
      have hjumps := createWhile_jumps hb hheap hinner hv hrest' hlater
      obtain ⟨hstart, hhead⟩ := hbuilt.end_blocks hb hrest'
      have hlast := (hnothing.blocks_eq (by omega) hheap' hlater (by omega)).trans hstart
      have hhead' := (hlater.blocks_eq (Nat.le_refl _) (by omega) (by omega)).trans hhead
      have hedge : cfgEdge ir c.block c.ctx.blockCount := by
        apply cfgEdge_of_last hlast <;> rw [hjumps.start] <;> simp
      have hexit : cfgEdge ir c.ctx.blockCount inner.ctx.blockCount := by
        apply cfgEdge_of_last hhead' <;> rw [hjumps.cond] <;> simp
      exact ihrest hbuilt.block_lt hbuilt.end_heap hrest (hbuilt.later_rest hlater)
        (hlater.nothingBehind_of_new hmade hnew (Nat.lt_of_lt_of_le hlt hcount'))
        ((hreach.step hedge).step hexit)
  | ret rest ih =>
      obtain ⟨c₁, hret, hrest⟩ := createStatements_cons.mp h
      rw [createStatement_return] at hret
      cases hret
      have hstays := staysIn_return hb
      exact ih (hstays.block_lt hb) (hstays.heap hheap) hrest (hlater.of_stays hstays)
        (hnothing.of_stays hstays) (hstays.block ▸ hreach)
  | other node hignored rest ih =>
      obtain ⟨c₁, hnode, hrest⟩ := createStatements_cons.mp h
      rw [createStatement_ignored c hignored] at hnode
      cases hnode
      exact ih hb hheap hrest hlater hnothing hreach

/-! ## How blocks are entered -/

/-- The block `t` has at most two uses; the oldest one stands in a strict dominator, and no other
one in a block that is not reachable, if `t` is. -/
structure Entered (ir : Ir) (entry t : ℕ) : Prop where
  few : (ir.uses (.block t)).length ≤ 2
  oldest : ∃ u us, ir.uses (.block t) = u :: us ∧
    StrictlyDominates (cfgEdge ir) entry (ir.insts u.inst).parent t
  reachable : Reachable (cfgEdge ir) entry t →
    ∀ u ∈ ir.uses (.block t), Reachable (cfgEdge ir) entry (ir.insts u.inst).parent

theorem Entered.of_oldest {t : ℕ} {u : Use} {us : List Use}
    (huses : ir.uses (.block t) = u :: us) (hfew : us.length ≤ 1)
    (hdom : StrictlyDominates (cfgEdge ir) entry (ir.insts u.inst).parent t)
    (hothers : Reachable (cfgEdge ir) entry t →
      ∀ u ∈ us, Reachable (cfgEdge ir) entry (ir.insts u.inst).parent) : Entered ir entry t where
  few := by
    rw [huses]
    exact Nat.succ_le_succ hfew
  oldest := ⟨u, us, huses, hdom⟩
  reachable ht u' hu' := by
    rw [huses] at hu'
    rcases List.mem_cons.mp hu' with rfl | hu'
    · exact hdom.2.reachable ht
    · exact hothers ht u' hu'

/-- The two blocks that an `if` makes. -/
theorem IfJumps.entered (h : IfJumps ir c c₁ inner v)
    (hgate : ∀ t, t = c₁.ctx.blockCount ∨ t = inner.ctx.blockCount →
      StrictlyDominates (cfgEdge ir) entry c.block t)
    (hbody : Reachable (cfgEdge ir) entry inner.ctx.blockCount →
      Reachable (cfgEdge ir) entry inner.block) :
    Entered ir entry c₁.ctx.blockCount ∧ Entered ir entry inner.ctx.blockCount := by
  refine ⟨.of_oldest h.body_uses (Nat.zero_le 1) ?_ (by simp),
    .of_oldest h.rest_uses (Nat.le_refl 1) ?_ ?_⟩
  · rw [h.cond]
    exact hgate _ (.inl rfl)
  · rw [h.cond]
    exact hgate _ (.inr rfl)
  · intro ht u hu
    obtain rfl := List.mem_singleton.mp hu
    rw [h.leave]
    exact hbody ht

/-- The three blocks that a `while` makes. -/
theorem WhileJumps.entered (h : WhileJumps ir c inner c₁ v) (hheap : HeapClosed ir)
    (hentry : entry < c.ctx.blockCount) (hcount : c.ctx.blockCount + 1 < inner.ctx.blockCount)
    (hgate : StrictlyDominates (cfgEdge ir) entry c.block c.ctx.blockCount)
    (hedge : cfgEdge ir c.ctx.blockCount (c.ctx.blockCount + 1)) :
    Entered ir entry c.ctx.blockCount ∧ Entered ir entry (c.ctx.blockCount + 1) ∧
      Entered ir entry inner.ctx.blockCount := by
  have hparent : ∀ k, (ir.insts (Use.mk c₁.ctx.instCount k).inst).parent = c.ctx.blockCount := by
    intro k
    rw [h.cond]
  refine ⟨.of_oldest h.head_uses (Nat.le_refl 1) ?_ ?_,
    .of_oldest h.body_uses (Nat.zero_le 1) ?_ (by simp),
    .of_oldest h.rest_uses (Nat.zero_le 1) ?_ (by simp)⟩
  · rw [h.start]
    exact hgate
  · intro ht u hu
    obtain rfl := List.mem_singleton.mp hu
    rw [h.back]
    exact ht.step hedge
  · refine strictlyDominates_of_single hheap (by omega) h.body_uses ?_
    rw [hparent]
    omega
  · refine strictlyDominates_of_single hheap (by omega) h.rest_uses ?_
    rw [hparent]
    omega

/-- **The blocks of statements.**  Each is entered first from a strict dominator. -/
theorem createStatements_entered {ss : Statements} {i₀ i₁ : ℕ} (hb : c.block < c.ctx.blockCount)
    (hheap : HeapClosed c.ctx) (h : createStatements c ss.toAst = some c')
    (hlater : Later c c' ir) (hjumps : JumpsLast ir i₀ i₁) (hge : i₀ ≤ c.ctx.instCount)
    (hlt : c'.ctx.instCount ≤ i₁) (hentry : entry ≤ c.block) {t : ℕ} (hlo : c.ctx.blockCount ≤ t)
    (hhi : t < c'.ctx.blockCount) : Entered ir entry t := by
  have hheap' : HeapClosed ir :=
    Builds.heapClosed hlater ((createStatements_builds hb hheap h).heapClosed hheap)
  induction ss generalizing c c' with
  | done =>
      cases h
      omega
  | assign varName value rest ih =>
      obtain ⟨c₁, hassign, hrest⟩ := createStatements_cons.mp h
      have hstays := staysIn_assignment hb hheap (createStatement_assign.mp hassign)
      exact ih (hstays.block_lt hb) (hstays.heap hheap) hrest (hlater.of_stays hstays)
        (hge.trans (hstays.builds fun _ => False).grows.instCount) hlt (hstays.block ▸ hentry)
        (hstays.blockCount ▸ hlo) hhi
  | declare dataType op varName value rest ih =>
      obtain ⟨c₂, hdeclare, hrest⟩ := createStatements_cons.mp h
      obtain ⟨c₁, hreg, hassign⟩ := createStatement_declare.mp hdeclare
      have hstays := staysIn_declaration hb hheap hreg hassign
      exact ih (hstays.block_lt hb) (hstays.heap hheap) hrest (hlater.of_stays hstays)
        (hge.trans (hstays.builds fun _ => False).grows.instCount) hlt (hstays.block ▸ hentry)
        (hstays.blockCount ▸ hlo) hhi
  | ifThen condition body rest ihbody ihrest =>
      have hgate := createStatements_gate hb hheap h hlater
      obtain ⟨c₂, hif, hrest⟩ := createStatements_cons.mp h
      obtain ⟨c₁, v, inner, hv, hinner, rfl⟩ := createStatement_if.mp hif
      have hbuilt := createIf_built hb hheap hv hinner
      have hb₂ : (c₁.endIf inner v).block < (c₁.endIf inner v).ctx.blockCount := Nat.lt_succ_self _
      have hrest' := createStatements_builds hb₂ hbuilt.end_heap hrest
      have hcur : (c₁.endIf inner v).Ahead c'.block :=
        (createStatements_created hb₂ hrest).block_cases
      have hcount := hbuilt.count
      have hblockCount := hbuilt.blockCount
      have hcount' : inner.ctx.blockCount + 1 ≤ c'.ctx.blockCount := hrest'.grows.blockCount
      have hinsts : c.ctx.instCount ≤ inner.ctx.instCount :=
        hbuilt.value.grows.instCount.trans hbuilt.body.grows.instCount
      have hinsts' : inner.ctx.instCount + 2 ≤ c'.ctx.instCount := hrest'.grows.instCount
      have hlater₁ := hbuilt.later_body hb hrest' hcur hlater
      have hnothing := hbuilt.nothingBehind_body hb hrest' hcur hlater
      have hends := createIf_jumps hb hheap hv hinner hrest' hlater
      have hdom : ∀ t, t = c₁.ctx.blockCount ∨ t = inner.ctx.blockCount →
          StrictlyDominates (cfgEdge ir) entry c.block t := fun t ht =>
        hgate.strictlyDominates (.inl (by omega)) (by omega) (by omega)
      -- where the rest is reachable, the body is, and so is its last block
      have hbody : Reachable (cfgEdge ir) entry inner.ctx.blockCount →
          Reachable (cfgEdge ir) entry inner.block := by
        intro hreach
        obtain ⟨more, hmore⟩ := hlater.any.grows.blocks c.block (by omega)
        have hmem : inner.ctx.instCount ∈ ir.blocks c.block := by
          rw [← hmore, (hbuilt.end_blocks hb hrest').1]
          simp
        obtain ⟨l, hl⟩ := hjumps.last hentry hmem (hge.trans hinsts) (by omega)
          (by rw [hends.cond]; simp) hreach
        have hedge : cfgEdge ir c.block c₁.ctx.blockCount := by
          apply cfgEdge_of_last hl <;> rw [hends.cond] <;> simp
        exact createStatements_reaches (c := c₁.enterBlock) (Nat.lt_succ_self _) hbuilt.enter_heap
          hinner hlater₁ hnothing (((hdom _ (.inr rfl)).2.reachable hreach).step hedge)
      obtain ⟨hentered, hentered'⟩ := hends.entered hdom hbody
      rcases Nat.lt_trichotomy t inner.ctx.blockCount with ht | rfl | ht
      · obtain rfl | ht' : t = c₁.ctx.blockCount ∨ c₁.ctx.blockCount + 1 ≤ t := by omega
        · exact hentered
        · exact ihbody (c := c₁.enterBlock) (Nat.lt_succ_self _) hbuilt.enter_heap hinner hlater₁
            (hge.trans hbuilt.value.grows.instCount) (by omega)
            (show entry ≤ c₁.ctx.blockCount by omega) ht' ht
      · exact hentered'
      · exact ihrest hb₂ hbuilt.end_heap hrest (hbuilt.later_rest hlater)
          (show i₀ ≤ inner.ctx.instCount + 2 by omega) hlt
          (show entry ≤ inner.ctx.blockCount by omega) ht hhi
  | whileDo condition body rest ihbody ihrest =>
      have hgate := createStatements_gate hb hheap h hlater
      obtain ⟨c₂, hwhile, hrest⟩ := createStatements_cons.mp h
      obtain ⟨inner, c₁, v, hinner, hv, rfl⟩ := createStatement_while.mp hwhile
      have hbuilt := createWhile_built hb hheap hinner hv
      have hrest' := createStatements_builds hbuilt.block_lt hbuilt.end_heap hrest
      have hcur : (c.endLoop inner c₁ v).Ahead c'.block :=
        (createStatements_created hbuilt.block_lt hrest).block_cases
      have hcount := hbuilt.count
      have hcount₁ : (c.endLoop inner c₁ v).ctx.blockCount = inner.ctx.blockCount + 1 :=
        hbuilt.blockCount
      have hcount' := hrest'.grows.blockCount
      have hcur' : c'.block = inner.ctx.blockCount ∨
          (c.endLoop inner c₁ v).ctx.blockCount ≤ c'.block := hcur
      have hinsts : c.ctx.instCount + 1 ≤ inner.ctx.instCount := hbuilt.body.grows.instCount
      have hinsts₁ : inner.ctx.instCount + 1 ≤ c₁.ctx.instCount := hbuilt.value.grows.instCount
      have hinsts' : c₁.ctx.instCount + 1 ≤ c'.ctx.instCount := hrest'.grows.instCount
      have hends := createWhile_jumps hb hheap hinner hv hrest' hlater
      have hhead := (hlater.blocks_eq (Nat.le_refl _) (by omega) (by omega)).trans
        (hbuilt.end_blocks hb hrest').2
      have hedge : cfgEdge ir c.ctx.blockCount (c.ctx.blockCount + 1) := by
        apply cfgEdge_of_last hhead <;> rw [hends.cond] <;> simp
      have hdom : StrictlyDominates (cfgEdge ir) entry c.block c.ctx.blockCount :=
        hgate.strictlyDominates (.inl (by omega)) (Nat.le_refl _) (by omega)
      obtain ⟨hentered, hentered', hentered''⟩ :=
        hends.entered hheap' (by omega) hcount hdom hedge
      rcases Nat.lt_trichotomy t inner.ctx.blockCount with ht | rfl | ht
      · obtain rfl | rfl | ht' : t = c.ctx.blockCount ∨ t = c.ctx.blockCount + 1 ∨
            c.ctx.blockCount + 2 ≤ t := by omega
        · exact hentered
        · exact hentered'
        · exact ihbody (c := c.enterLoop.enterBlock) (Nat.lt_succ_self _) hbuilt.enter_heap hinner
            (hbuilt.later_body hrest' hcur hlater) (show i₀ ≤ c.ctx.instCount + 1 by omega)
            (by omega) (show entry ≤ c.ctx.blockCount + 1 by omega) ht' ht
      · exact hentered''
      · exact ihrest hbuilt.block_lt hbuilt.end_heap hrest (hbuilt.later_rest hlater)
          (show i₀ ≤ c₁.ctx.instCount + 1 by omega) hlt
          (show entry ≤ inner.ctx.blockCount by omega) (by omega) hhi
  | ret rest ih =>
      obtain ⟨c₁, hret, hrest⟩ := createStatements_cons.mp h
      rw [createStatement_return] at hret
      cases hret
      have hstays := staysIn_return hb
      exact ih (hstays.block_lt hb) (hstays.heap hheap) hrest (hlater.of_stays hstays)
        (hge.trans (hstays.builds fun _ => False).grows.instCount) hlt (hstays.block ▸ hentry)
        (hstays.blockCount ▸ hlo) hhi
  | other node hignored rest ih =>
      obtain ⟨c₁, hnode, hrest⟩ := createStatements_cons.mp h
      rw [createStatement_ignored c hignored] at hnode
      cases hnode
      exact ih hb hheap hrest hlater hge hlt hentry hlo hhi

end Reached

/-! ## Created functions -/

/-- A strict dominator is listed later in the postorder. -/
theorem strictDominator_listed_later {ir : Ir} {entry fuel : ℕ} {s : VisitState}
    (hs : visit ir fuel visitStart entry = some s) {d b j : ℕ} (hj : s.postorder[j]? = some b)
    (hdom : StrictlyDominates (cfgEdge ir) entry d b) :
    ∃ i, j < i ∧ s.postorder[i]? = some d := by
  have hpost := visit_postorder hs
  induction hk : s.postorder.length - j using Nat.strong_induction_on generalizing j b with
  | _ k ih =>
      have hne : b ≠ entry := by
        rintro rfl
        exact hdom.1 (List.mem_singleton.mp (hdom.2 _ .root))
      obtain ⟨i, a, hlt, ha, hE⟩ := exists_later_predecessor hs hj hne
      have hilt := (List.getElem?_eq_some_iff.mp ha).1
      by_cases hda : d = a
      · exact ⟨i, hlt, hda ▸ ha⟩
      · obtain ⟨i', hlt', hi'⟩ := ih _ (by omega) ha ⟨hda, hdom.of_edge hE⟩ rfl
        exact ⟨i', hlt.trans hlt', hi'⟩

section Created

variable {c inner : IrCreator} {body : Statements} (hheap : HeapClosed c.ctx)
  (h : createStatements c.enterBlock body.toAst = some inner)
include hheap h

/-- The blocks of a created function, other than its entry. -/
theorem created_entered {t : ℕ} (hlo : c.ctx.blockCount < t) (hhi : t < inner.ctx.blockCount) :
    Entered inner.ctx c.ctx.blockCount t :=
  createStatements_entered (c := c.enterBlock) (Nat.lt_succ_self _) hheap.block_new h .refl
    (created_jumps hheap h) (Nat.le_refl _) (Nat.le_refl _) (Nat.le_refl _) hlo hhi

theorem created_lt {b : ℕ} (hb : Reachable (cfgEdge inner.ctx) c.ctx.blockCount b) :
    b < inner.ctx.blockCount := by
  have hbuilds := created_builds hheap h
  obtain ⟨p, hp⟩ := hb
  cases hp with
  | root => exact hbuilds.grows.blockCount
  | step _ hE =>
      obtain ⟨u, -, -, hu⟩ := mem_blockSuccessors.mp hE
      exact (created_heap hheap h).block u _ hu

/-- No jump leads to the entry. -/
theorem created_root : inner.ctx.uses (.block c.ctx.blockCount) = [] := by
  rw [(created_builds hheap h).uses_block (t := c.ctx.blockCount) (Nat.lt_succ_self _)
    (Nat.not_succ_le_self _)]
  exact blockNew_uses_self _

/-- A use of a reachable block is a new instruction in a reachable block. -/
theorem created_use {b : ℕ} (hb : Reachable (cfgEdge inner.ctx) c.ctx.blockCount b) {u : Use}
    (hu : u ∈ inner.ctx.uses (.block b)) :
    Reachable (cfgEdge inner.ctx) c.ctx.blockCount (inner.ctx.insts u.inst).parent ∧
      u.inst ∈ inner.ctx.blocks (inner.ctx.insts u.inst).parent ∧
      c.ctx.instCount ≤ u.inst ∧ u.inst < inner.ctx.instCount := by
  have hheap' := created_heap hheap h
  have hbuilds := created_builds hheap h
  have hop := (hheap'.uses.mem _ u).mp hu
  have hlo := created_reachable hheap h hb
  have hne : b ≠ c.ctx.blockCount := by
    rintro rfl
    rw [created_root hheap h] at hu
    cases hu
  have hlt : u.inst < inner.ctx.instCount := by
    by_contra hge
    rw [Ir.operand, hheap'.fresh _ (Nat.le_of_not_lt hge)] at hop
    cases hop
  have hge : c.ctx.instCount ≤ u.inst := by
    by_contra hold
    rw [Ir.operand, hbuilds.grows.insts u.inst (Nat.lt_of_not_le hold)] at hop
    exact absurd (hheap.block u b hop) (Nat.not_lt_of_le hlo)
  exact ⟨(created_entered hheap h (Nat.lt_of_le_of_ne hlo (Ne.symm hne))
    (created_lt hheap h hb)).reachable hb u hu,
    hbuilds.mem_parent hheap.block_new hge hlt, hge, hlt⟩

/-- **The shape of a created function.** -/
theorem createdShape (hmemory : 8 * inner.ctx.blockCount < 2 ^ 64) :
    CfgShape inner.ctx c.ctx.blockCount where
  allocated b hb := created_lt hheap h hb
  memory := hmemory
  parent a i _ hlast := (created_heap hheap h).parent a i (List.mem_of_getLast? hlast)
  root := created_root hheap h
  uses b hb u := by
    have hheap' := created_heap hheap h
    constructor
    · intro hu
      obtain ⟨ha, hi⟩ := created_use hheap h hb hu
      obtain ⟨l, hl⟩ := (created_jumps hheap h).last (created_reachable hheap h ha) hi.1 hi.2.1
        hi.2.2 (mem_uses_of_operand ((hheap'.uses.mem _ u).mp hu)) hb
      exact ⟨_, ha, by rw [blockLastInstruction, hl, List.getLast?_concat],
        (createdForm hheap h).phi _ ha _ hi.1, (hheap'.uses.mem _ u).mp hu⟩
    · rintro ⟨a, -, -, -, hop⟩
      exact (hheap'.uses.mem _ u).mpr hop
  oldest fuel s hs j b hj hne := by
    have hb := (visit_postorder hs).reachable hj
    obtain ⟨u, us, huses, hdom⟩ := (created_entered hheap h
      (Nat.lt_of_le_of_ne (created_reachable hheap h hb) (Ne.symm hne))
      (created_lt hheap h hb)).oldest
    obtain ⟨i, hlt, hi⟩ := strictDominator_listed_later hs hj hdom
    exact ⟨i, _, by rw [blockPredecessors, huses]; rfl, hi, hlt⟩

end Created
