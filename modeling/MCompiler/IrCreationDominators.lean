/-
# The dominators of created functions

The block of the oldest use of a block is its immediate dominator (`created_isIDom`), and it
has at most two blocks to dominate.  The reachable blocks of a created function can be counted
in its statements (`created_ncard`).  So `dominators_compute` is right on it if and only if the
statements make at most 249 blocks outside of the bodies of loops
(`createFunction_computesDominators_iff`).
-/
import MCompiler.IrCreationShape

open FlowGraph

/-- The blocks that statements make and that can be reached: the jump back of a `while` leaves
no way into the blocks that its body makes. -/
def Statements.liveBlocks : Statements → ℕ
  | .done => 0
  | .assign _ _ rest => rest.liveBlocks
  | .declare _ _ _ _ rest => rest.liveBlocks
  | .ifThen _ body rest => 2 + body.liveBlocks + rest.liveBlocks
  | .whileDo _ _ rest => 3 + rest.liveBlocks
  | .ret rest => rest.liveBlocks
  | .other _ _ rest => rest.liveBlocks

/-- All the blocks that statements make. -/
def Statements.blockCount : Statements → ℕ
  | .done => 0
  | .assign _ _ rest => rest.blockCount
  | .declare _ _ _ _ rest => rest.blockCount
  | .ifThen _ body rest => 2 + body.blockCount + rest.blockCount
  | .whileDo _ body rest => 3 + body.blockCount + rest.blockCount
  | .ret rest => rest.blockCount
  | .other _ _ rest => rest.blockCount

theorem createStatements_blockCount {ss : Statements} {c c' : IrCreator}
    (hb : c.block < c.ctx.blockCount) (hheap : HeapClosed c.ctx)
    (h : createStatements c ss.toAst = some c') :
    c'.ctx.blockCount = c.ctx.blockCount + ss.blockCount := by
  induction ss generalizing c c' with
  | done =>
      cases h
      rfl
  | assign varName value rest ih =>
      obtain ⟨c₁, hassign, hrest⟩ := createStatements_cons.mp h
      have hstays := staysIn_assignment hb hheap (createStatement_assign.mp hassign)
      rw [ih (hstays.block_lt hb) (hstays.heap hheap) hrest, hstays.blockCount]
      rfl
  | declare dataType op varName value rest ih =>
      obtain ⟨c₂, hdeclare, hrest⟩ := createStatements_cons.mp h
      obtain ⟨c₁, hreg, hassign⟩ := createStatement_declare.mp hdeclare
      have hstays := staysIn_declaration hb hheap hreg hassign
      rw [ih (hstays.block_lt hb) (hstays.heap hheap) hrest, hstays.blockCount]
      rfl
  | ifThen condition body rest ihbody ihrest =>
      obtain ⟨c₂, hif, hrest⟩ := createStatements_cons.mp h
      obtain ⟨c₁, v, inner, hv, hinner, rfl⟩ := createStatement_if.mp hif
      have hbuilt := createIf_built hb hheap hv hinner
      have hbody := ihbody (c := c₁.enterBlock) (Nat.lt_succ_self _) hbuilt.enter_heap hinner
      have hrest' := ihrest (c := c₁.endIf inner v) (Nat.lt_succ_self _) hbuilt.end_heap hrest
      have henter : c₁.enterBlock.ctx.blockCount = c.ctx.blockCount + 1 :=
        congrArg (· + 1) hbuilt.blockCount
      have hend : (c₁.endIf inner v).ctx.blockCount = inner.ctx.blockCount + 1 := rfl
      rw [Statements.blockCount]
      omega
  | whileDo condition body rest ihbody ihrest =>
      obtain ⟨c₂, hwhile, hrest⟩ := createStatements_cons.mp h
      obtain ⟨inner, c₁, v, hinner, hv, rfl⟩ := createStatement_while.mp hwhile
      have hbuilt := createWhile_built hb hheap hinner hv
      have hbody := ihbody (c := c.enterLoop.enterBlock) (Nat.lt_succ_self _) hbuilt.enter_heap
        hinner
      have hrest' := ihrest hbuilt.block_lt hbuilt.end_heap hrest
      have henter : c.enterLoop.enterBlock.ctx.blockCount = c.ctx.blockCount + 2 := rfl
      have hend : (c.endLoop inner c₁ v).ctx.blockCount = inner.ctx.blockCount + 1 :=
        hbuilt.blockCount
      rw [Statements.blockCount]
      omega
  | ret rest ih =>
      obtain ⟨c₁, hret, hrest⟩ := createStatements_cons.mp h
      rw [createStatement_return] at hret
      cases hret
      have hstays := staysIn_return hb
      rw [ih (c := c.emit .ret .void []) (hstays.block_lt hb) (hstays.heap hheap) hrest]
      rfl
  | other node hignored rest ih =>
      obtain ⟨c₁, hnode, hrest⟩ := createStatements_cons.mp h
      rw [createStatement_ignored c hignored] at hnode
      cases hnode
      rw [ih hb hheap hrest]
      rfl

/-! ## Reachable blocks -/

section Live

open Classical in
/-- The reachable blocks from `lo` to `hi`. -/
noncomputable def liveBetween (ir : Ir) (entry lo hi : ℕ) : Finset ℕ :=
  (Finset.Ico lo hi).filter (Reachable (cfgEdge ir) entry)

variable {ir : Ir} {entry lo mid hi : ℕ}

theorem mem_liveBetween {b : ℕ} :
    b ∈ liveBetween ir entry lo hi ↔ (lo ≤ b ∧ b < hi) ∧ Reachable (cfgEdge ir) entry b := by
  classical
  unfold liveBetween
  rw [Finset.mem_filter, Finset.mem_Ico]

theorem card_liveBetween_add (hlo : lo ≤ mid) (hhi : mid ≤ hi) :
    (liveBetween ir entry lo mid).card + (liveBetween ir entry mid hi).card =
      (liveBetween ir entry lo hi).card := by
  rw [← Finset.card_union_of_disjoint]
  · congr 1
    ext b
    rw [Finset.mem_union, mem_liveBetween, mem_liveBetween, mem_liveBetween, ← or_and_right]
    apply and_congr_left'
    omega
  · rw [Finset.disjoint_left]
    intro b hb hb'
    have := (mem_liveBetween.mp hb).1
    have := (mem_liveBetween.mp hb').1
    omega

/-- A reachable block, and the reachable ones behind it. -/
theorem card_liveBetween_succ (h : Reachable (cfgEdge ir) entry lo) (hlt : lo < hi) :
    (liveBetween ir entry lo hi).card = 1 + (liveBetween ir entry (lo + 1) hi).card := by
  rw [← card_liveBetween_add (Nat.le_succ lo) hlt]
  congr 1
  rw [Finset.card_eq_one]
  refine ⟨lo, Finset.ext fun b => ?_⟩
  rw [mem_liveBetween, Finset.mem_singleton]
  constructor
  · rintro ⟨hb, -⟩
    omega
  · rintro rfl
    exact ⟨⟨Nat.le_refl _, Nat.lt_succ_self _⟩, h⟩

theorem card_liveBetween_eq_zero
    (h : ∀ b, lo ≤ b → b < hi → ¬ Reachable (cfgEdge ir) entry b) :
    (liveBetween ir entry lo hi).card = 0 := by
  rw [Finset.card_eq_zero, Finset.eq_empty_iff_forall_notMem]
  intro b hb
  obtain ⟨⟨hlo, hhi⟩, hreach⟩ := mem_liveBetween.mp hb
  exact h b hlo hhi hreach

end Live

/-! ## Counting blocks -/

section Count

variable {c c' : IrCreator} {ir : Ir} {entry : ℕ}

/-- The blocks that the body of a `while` makes are not reachable, as its first block ends with
the jump back. -/
theorem WhileBuilt.body_not_reachable {inner c₁ : IrCreator} {v : Value}
    (h : WhileBuilt c inner c₁ v)
    (hrest : Builds (c.endLoop inner c₁ v).Ahead (c.endLoop inner c₁ v).Unmade
      (c.endLoop inner c₁ v).ctx c'.ctx) (hcur : (c.endLoop inner c₁ v).Ahead c'.block)
    (hlater : Later c c' ir)
    (hgate : Gate ir (c.ctx.blockCount + 1) (c.ctx.blockCount + 2) inner.ctx.blockCount)
    (hends : WhileJumps ir c inner c₁ v) (hentry : entry ≤ c.block)
    (hb : c.block < c.ctx.blockCount) (b : ℕ) (hlo : c.ctx.blockCount + 2 ≤ b)
    (hhi : b < inner.ctx.blockCount) : ¬ Reachable (cfgEdge ir) entry b := by
  have hcount := h.count
  have hcount₁ : (c.endLoop inner c₁ v).ctx.blockCount = inner.ctx.blockCount + 1 := h.blockCount
  have hcount' := hrest.grows.blockCount
  have hcur' : c'.block = inner.ctx.blockCount ∨
      (c.endLoop inner c₁ v).ctx.blockCount ≤ c'.block := hcur
  have hlast := ((hlater.blocks_eq (Nat.le_succ _) (by omega) (by omega)).trans
    (h.head_blocks hrest hcount (by omega))).trans (loopHead_blocks hcount).1
  refine hgate.not_reachable (.inl (by omega)) hlast ?_ hlo hhi
  intro t ht
  rw [hends.back, List.mem_singleton, Option.some.injEq, Value.block.injEq] at ht
  omega

/-- **The reachable blocks of statements** can be counted. -/
theorem createStatements_liveBlocks {ss : Statements} (hb : c.block < c.ctx.blockCount)
    (hheap : HeapClosed c.ctx) (h : createStatements c ss.toAst = some c')
    (hlater : Later c c' ir) (hnothing : NothingBehind ir c c') (hentry : entry ≤ c.block)
    (hreach : Reachable (cfgEdge ir) entry c.block) :
    (liveBetween ir entry c.ctx.blockCount c'.ctx.blockCount).card = ss.liveBlocks := by
  have hheap' : HeapClosed ir :=
    Builds.heapClosed hlater ((createStatements_builds hb hheap h).heapClosed hheap)
  induction ss generalizing c c' with
  | done =>
      cases h
      exact card_liveBetween_eq_zero fun b hlo hhi => absurd hhi (Nat.not_lt_of_le hlo)
  | assign varName value rest ih =>
      obtain ⟨c₁, hassign, hrest⟩ := createStatements_cons.mp h
      have hstays := staysIn_assignment hb hheap (createStatement_assign.mp hassign)
      rw [← hstays.blockCount]
      exact ih (hstays.block_lt hb) (hstays.heap hheap) hrest (hlater.of_stays hstays)
        (hnothing.of_stays hstays) (hstays.block ▸ hentry) (hstays.block ▸ hreach)
  | declare dataType op varName value rest ih =>
      obtain ⟨c₂, hdeclare, hrest⟩ := createStatements_cons.mp h
      obtain ⟨c₁, hreg, hassign⟩ := createStatement_declare.mp hdeclare
      have hstays := staysIn_declaration hb hheap hreg hassign
      rw [← hstays.blockCount]
      exact ih (hstays.block_lt hb) (hstays.heap hheap) hrest (hlater.of_stays hstays)
        (hnothing.of_stays hstays) (hstays.block ▸ hentry) (hstays.block ▸ hreach)
  | ifThen condition body rest ihbody ihrest =>
      have hmade := (createStatements_builds hb hheap h).heapClosed hheap
      obtain ⟨c₂, hif, hrest⟩ := createStatements_cons.mp h
      obtain ⟨c₁, v, inner, hv, hinner, rfl⟩ := createStatement_if.mp hif
      have hbuilt := createIf_built hb hheap hv hinner
      have hb₂ : (c₁.endIf inner v).block < (c₁.endIf inner v).ctx.blockCount := Nat.lt_succ_self _
      have hrest' := createStatements_builds hb₂ hbuilt.end_heap hrest
      have hcur : (c₁.endIf inner v).Ahead c'.block :=
        (createStatements_created hb₂ hrest).block_cases
      have hcur' : c'.block = inner.ctx.blockCount ∨ inner.ctx.blockCount + 1 ≤ c'.block := hcur
      have hcount := hbuilt.count
      have hcount' : inner.ctx.blockCount + 1 ≤ c'.ctx.blockCount := hrest'.grows.blockCount
      rw [← hbuilt.blockCount]
      have hblockCount := hbuilt.blockCount
      have hnew : c.ctx.blockCount ≤ (c₁.endIf inner v).block := by
        show c.ctx.blockCount ≤ inner.ctx.blockCount
        omega
      have hends := createIf_jumps hb hheap hv hinner hrest' hlater
      have hlast := (hnothing.blocks_eq (by omega) hheap' hlater (by omega)).trans
        (hbuilt.end_blocks hb hrest').1
      have hbody : Reachable (cfgEdge ir) entry c₁.ctx.blockCount := by
        refine hreach.step (cfgEdge_of_last hlast ?_ ?_) <;> rw [hends.cond] <;> simp
      have hafter : Reachable (cfgEdge ir) entry inner.ctx.blockCount := by
        refine hreach.step (cfgEdge_of_last hlast ?_ ?_) <;> rw [hends.cond] <;> simp
      have hlive := ihbody (c := c₁.enterBlock) (Nat.lt_succ_self _) hbuilt.enter_heap hinner
        (hbuilt.later_body hb hrest' hcur hlater) (hbuilt.nothingBehind_body hb hrest' hcur hlater)
        (show entry ≤ c₁.ctx.blockCount by omega) hbody
      have hlive' := ihrest hb₂ hbuilt.end_heap hrest (hbuilt.later_rest hlater)
        (hlater.nothingBehind_of_new hmade hnew hrest'.grows.blockCount)
        (show entry ≤ inner.ctx.blockCount by omega) hafter
      calc (liveBetween ir entry c₁.ctx.blockCount c'.ctx.blockCount).card
          = 1 + (liveBetween ir entry (c₁.ctx.blockCount + 1) c'.ctx.blockCount).card :=
            card_liveBetween_succ hbody (by omega)
        _ = 1 + ((liveBetween ir entry (c₁.ctx.blockCount + 1) inner.ctx.blockCount).card +
              (1 + (liveBetween ir entry (inner.ctx.blockCount + 1) c'.ctx.blockCount).card)) := by
            rw [← card_liveBetween_succ hafter (by omega),
              card_liveBetween_add (by omega) (by omega)]
        _ = 1 + (body.liveBlocks + (1 + rest.liveBlocks)) := by
            rw [← hlive, ← hlive']
            rfl
        _ = 2 + body.liveBlocks + rest.liveBlocks := by omega
  | whileDo condition body rest ihbody ihrest =>
      have hmade := (createStatements_builds hb hheap h).heapClosed hheap
      obtain ⟨c₂, hwhile, hrest⟩ := createStatements_cons.mp h
      obtain ⟨inner, c₁, v, hinner, hv, rfl⟩ := createStatement_while.mp hwhile
      have hbuilt := createWhile_built hb hheap hinner hv
      have hrest' := createStatements_builds hbuilt.block_lt hbuilt.end_heap hrest
      have hcur : (c.endLoop inner c₁ v).Ahead c'.block :=
        (createStatements_created hbuilt.block_lt hrest).block_cases
      have hcount := hbuilt.count
      have hcount₁ : (c.endLoop inner c₁ v).ctx.blockCount = inner.ctx.blockCount + 1 :=
        hbuilt.blockCount
      have hcount' := hrest'.grows.blockCount
      have hcur' : c'.block = inner.ctx.blockCount ∨
          (c.endLoop inner c₁ v).ctx.blockCount ≤ c'.block := hcur
      have hnew : c.ctx.blockCount ≤ (c.endLoop inner c₁ v).block := by
        show c.ctx.blockCount ≤ inner.ctx.blockCount
        omega
      have hends := createWhile_jumps hb hheap hinner hv hrest' hlater
      obtain ⟨hstart, hhead⟩ := hbuilt.end_blocks hb hrest'
      have hlast := (hnothing.blocks_eq (by omega) hheap' hlater (by omega)).trans hstart
      have hhead' := (hlater.blocks_eq (Nat.le_refl _) (by omega) (by omega)).trans hhead
      have hreach₀ : Reachable (cfgEdge ir) entry c.ctx.blockCount := by
        refine hreach.step (cfgEdge_of_last hlast ?_ ?_) <;> rw [hends.start] <;> simp
      have hbody : Reachable (cfgEdge ir) entry (c.ctx.blockCount + 1) := by
        refine hreach₀.step (cfgEdge_of_last hhead' ?_ ?_) <;> rw [hends.cond] <;> simp
      have hafter : Reachable (cfgEdge ir) entry inner.ctx.blockCount := by
        refine hreach₀.step (cfgEdge_of_last hhead' ?_ ?_) <;> rw [hends.cond] <;> simp
      have hdead := hbuilt.body_not_reachable hrest' hcur hlater
        (createStatements_gate (c := c.enterLoop.enterBlock) (Nat.lt_succ_self _)
          hbuilt.enter_heap hinner (hbuilt.later_body hrest' hcur hlater)) hends hentry hb
      have hlive' := ihrest hbuilt.block_lt hbuilt.end_heap hrest (hbuilt.later_rest hlater)
        (hlater.nothingBehind_of_new hmade hnew (Nat.lt_of_lt_of_le hbuilt.block_lt hcount'))
        (show entry ≤ inner.ctx.blockCount by omega) hafter
      rw [hcount₁] at hlive'
      calc (liveBetween ir entry c.ctx.blockCount c'.ctx.blockCount).card
          = 1 + (1 + (liveBetween ir entry (c.ctx.blockCount + 1 + 1) c'.ctx.blockCount).card) := by
            rw [← card_liveBetween_succ hbody (by omega), ← card_liveBetween_succ hreach₀ (by omega)]
        _ = 1 + (1 + ((liveBetween ir entry (c.ctx.blockCount + 1 + 1) inner.ctx.blockCount).card +
              (1 + (liveBetween ir entry (inner.ctx.blockCount + 1) c'.ctx.blockCount).card))) := by
            rw [← card_liveBetween_succ hafter (by omega),
              card_liveBetween_add (by omega) (by omega)]
        _ = 1 + (1 + (0 + (1 + rest.liveBlocks))) := by
            rw [card_liveBetween_eq_zero hdead, hlive']
        _ = 3 + rest.liveBlocks := by omega
  | ret rest ih =>
      obtain ⟨c₁, hret, hrest⟩ := createStatements_cons.mp h
      rw [createStatement_return] at hret
      cases hret
      have hstays := staysIn_return hb
      exact ih (c := c.emit .ret .void []) (hstays.block_lt hb) (hstays.heap hheap) hrest
        (hlater.of_stays hstays) (hnothing.of_stays hstays) hentry hreach
  | other node hignored rest ih =>
      obtain ⟨c₁, hnode, hrest⟩ := createStatements_cons.mp h
      rw [createStatement_ignored c hignored] at hnode
      cases hnode
      exact ih hb hheap hrest hlater hnothing hentry hreach

end Count

/-! ## Created functions -/

section Created

variable {c inner : IrCreator} {body : Statements} (hheap : HeapClosed c.ctx)
  (h : createStatements c.enterBlock body.toAst = some inner)
include hheap h

theorem created_blockCount :
    inner.ctx.blockCount = c.ctx.blockCount + 1 + body.blockCount :=
  createStatements_blockCount (c := c.enterBlock) (Nat.lt_succ_self _) hheap.block_new h

/-- The number of reachable blocks of a created function. -/
theorem created_ncard :
    {b | Reachable (cfgEdge inner.ctx) c.ctx.blockCount b}.ncard = 1 + body.liveBlocks := by
  have hlt : c.ctx.blockCount < inner.ctx.blockCount := (created_builds hheap h).grows.blockCount
  have hset : {b | Reachable (cfgEdge inner.ctx) c.ctx.blockCount b} =
      (liveBetween inner.ctx c.ctx.blockCount c.ctx.blockCount inner.ctx.blockCount : Set ℕ) := by
    ext b
    rw [Set.mem_ofPred_eq, Finset.mem_coe, mem_liveBetween]
    exact ⟨fun hb => ⟨⟨created_reachable hheap h hb, created_lt hheap h hb⟩, hb⟩, And.right⟩
  have hlive := createStatements_liveBlocks (c := c.enterBlock) (Nat.lt_succ_self _)
    hheap.block_new h .refl
    (fun _ j hj => (created_heap hheap h).allocated _ j hj) (Nat.le_refl _) .root
  rw [hset, Set.ncard_coe_finset, card_liveBetween_succ .root hlt, ← hlive]
  rfl

/-- **The block of the oldest use is the immediate dominator.** -/
theorem created_isIDom {b : ℕ} (hb : Reachable (cfgEdge inner.ctx) c.ctx.blockCount b)
    (hne : b ≠ c.ctx.blockCount) :
    ∃ d, (blockPredecessors inner.ctx b).head? = some d ∧ cfgEdge inner.ctx d b ∧
      IsIDom (cfgEdge inner.ctx) c.ctx.blockCount d b := by
  obtain ⟨u, us, huses, hdom⟩ := (created_entered hheap h
    (Nat.lt_of_le_of_ne (created_reachable hheap h hb) (Ne.symm hne))
    (created_lt hheap h hb)).oldest
  have hmem : u ∈ inner.ctx.uses (.block b) := by
    rw [huses]
    exact List.mem_cons_self
  obtain ⟨ha, hi⟩ := created_use hheap h hb hmem
  have hop := ((created_heap hheap h).uses.mem _ u).mp hmem
  obtain ⟨l, hl⟩ := (created_jumps hheap h).last (created_reachable hheap h ha) hi.1 hi.2.1
    hi.2.2 (mem_uses_of_operand hop) hb
  have hedge := cfgEdge_of_last hl ((createdForm hheap h).phi _ ha _ hi.1)
    (mem_uses_of_operand hop)
  refine ⟨(inner.ctx.insts u.inst).parent, by rw [blockPredecessors, huses]; rfl, hedge, ?_⟩
  exact .of_edge hne hedge hdom.1 fun a _ hE => hdom.of_edge hE

/-- A created block has at most two successors. -/
theorem created_successors {b : ℕ} (hb : c.ctx.blockCount ≤ b) :
    (blockSuccessors inner.ctx b).length ≤ 2 := by
  unfold blockSuccessors
  cases hlast : blockLastInstruction inner.ctx b with
  | none => exact Nat.zero_le 2
  | some i =>
      obtain ⟨pre, hblock⟩ := List.getLast?_eq_some_iff.mp hlast
      have hmade := (created_made hheap h).made b hb pre i [] hblock
      dsimp only
      generalize (inner.ctx.insts i).type = type at hmade ⊢
      generalize (inner.ctx.insts i).uses = uses at hmade ⊢
      cases hmade with
      | jumpCond _ _ hv =>
          rename_i v _ _
          cases v with
          | block t => exact absurd rfl (hv.ne_block t)
          | _ => exact Nat.le_refl 2
      | binary _ hl hr => exact List.length_filterMap_le _ _
      | load _ => exact Nat.zero_le 2
      | ret => exact Nat.zero_le 2
      | assign _ _ => exact (List.length_filterMap_le _ _).trans (Nat.le_succ 1)
      | jump _ => exact Nat.le_succ 1

/-- A created block dominates at most two blocks immediately. -/
theorem created_dominatedBlocks (d : ℕ) :
    (dominatedBlocks inner.ctx c.ctx.blockCount d).ncard ≤ 2 := by
  by_cases hd : Reachable (cfgEdge inner.ctx) c.ctx.blockCount d
  · refine le_trans ?_ (created_successors hheap h (created_reachable hheap h hd))
    have hsub : dominatedBlocks inner.ctx c.ctx.blockCount d ⊆
        ((blockSuccessors inner.ctx d).toFinset : Set ℕ) := by
      rintro b ⟨hb, hidom⟩
      have hne : b ≠ c.ctx.blockCount := by
        rintro rfl
        exact hidom.strict.1 (List.mem_singleton.mp (hidom.strict.2 _ .root))
      obtain ⟨d', -, hedge, hidom'⟩ := created_isIDom hheap h hb hne
      obtain rfl := hidom'.unique hb hidom
      exact Finset.mem_coe.mpr (List.mem_toFinset.mpr hedge)
    calc (dominatedBlocks inner.ctx c.ctx.blockCount d).ncard
        ≤ ((blockSuccessors inner.ctx d).toFinset : Set ℕ).ncard :=
          Set.ncard_le_ncard hsub (Finset.finite_toSet _)
      _ = (blockSuccessors inner.ctx d).toFinset.card := Set.ncard_coe_finset _
      _ ≤ (blockSuccessors inner.ctx d).length := List.toFinset_card_le _
  · have hempty : dominatedBlocks inner.ctx c.ctx.blockCount d = ∅ := by
      rw [Set.eq_empty_iff_forall_notMem]
      rintro b ⟨hb, hidom⟩
      exact hd (hidom.strict.2.reachable hb)
    rw [hempty, Set.ncard_empty]
    exact Nat.zero_le 2

end Created

/-- A created function has the statements of its body. -/
theorem exists_created_body {creator creator' : IrCreator} {name : Range} {returnType : TokenType}
    {body : Statements} {entry : ℕ}
    (hcreate : irCreatorCreateFunction creator (functionAst name returnType body) =
      some (creator', entry)) :
    ∃ inner, createStatements creator.enterBlock body.toAst = some inner ∧
      creator'.ctx = inner.ctx ∧ entry = creator.ctx.blockCount := by
  obtain ⟨_, _, l, others, inner, hf, hinner, hr⟩ := createFunction_eq_some.mp hcreate
  simp only [functionAst, AstNode.function.injEq, List.cons.injEq, AstNode.block.injEq] at hf
  obtain ⟨-, -, -, rfl, -⟩ := hf
  cases hr
  exact ⟨inner, hinner, rfl, rfl⟩

/-- **`dominators_compute` on created functions.**  Their graphs have the right shape, the oldest
predecessor of a block is its immediate dominator, and the computation is right if and only if
the statements make at most 249 blocks outside of the bodies of loops. -/
theorem createFunction_computesDominators_iff {creator creator' : IrCreator} {name : Range}
    {returnType : TokenType} {body : Statements} {entry : ℕ} (hheap : HeapClosed creator.ctx)
    (hcreate : irCreatorCreateFunction creator (functionAst name returnType body) =
      some (creator', entry))
    (hmemory : 8 * (creator.ctx.blockCount + 1 + body.blockCount) < 2 ^ 64) :
    (∀ b, Reachable (cfgEdge creator'.ctx) entry b → b ≠ entry →
      ∃ d, (blockPredecessors creator'.ctx b).head? = some d ∧
        IsIDom (cfgEdge creator'.ctx) entry d b) ∧
    (ComputesDominators creator'.ctx entry ↔ body.liveBlocks ≤ 249) := by
  obtain ⟨inner, hinner, hctx, rfl⟩ := exists_created_body hcreate
  rw [← created_blockCount hheap hinner] at hmemory
  rw [hctx]
  have hshape := createdShape hheap hinner hmemory
  have hcard := created_ncard hheap hinner
  refine ⟨fun b hb hne => ?_, ?_, ?_⟩
  · obtain ⟨d, hd, -, hidom⟩ := created_isIDom hheap hinner hb hne
    exact ⟨d, hd, hidom⟩
  · rintro ⟨fuel₀, hall⟩
    obtain ⟨doms, hdoms, hstored, -⟩ := hall fuel₀ le_rfl
    have hle := (postorderStored_iff _).mp hstored
    rw [← length_postorder hdoms, hcard] at hle
    omega
  · intro hfew
    refine ⟨inner.ctx.blockCount * inner.ctx.blockCount + 2 * inner.ctx.blockCount + 2,
      fun fuel hfuel => ?_⟩
    obtain ⟨doms, hdoms, hcomp⟩ := dominatorsCompute_spec hshape (by rw [hcard]; omega) hfuel
    refine ⟨doms, hdoms, (postorderStored_iff _).mpr ?_, hcomp.childsStored_iff.mpr fun d => ?_,
      hcomp.correct⟩
    · rw [← length_postorder hdoms, hcard]
      omega
    · exact (created_dominatedBlocks hheap hinner d).trans (by decide)

/-- A loop behind an `if`, with an `if` in its body: `if (1) { } while (1) { if (1) { } }`. -/
def ifThenLoop : Statements :=
  .ifThen (.number 1) .done (.whileDo (.number 1) (.ifThen (.number 1) .done .done) .done)

/-- The theorem at `ifThenLoop`: two of its eight blocks are not reachable. -/
theorem createFunction_computesDominators_ifThenLoop : ∃ creator',
    irCreatorCreateFunction (irCreatorInit irContextInit) (functionAst [] .KW_VOID ifThenLoop) =
      some (creator', 0) ∧
    (∀ b, Reachable (cfgEdge creator'.ctx) 0 b → b ≠ 0 →
      ∃ d, (blockPredecessors creator'.ctx b).head? = some d ∧
        IsIDom (cfgEdge creator'.ctx) 0 d b) ∧
    (ComputesDominators creator'.ctx 0 ↔ ifThenLoop.liveBlocks ≤ 249) ∧
    ifThenLoop.blockCount = 7 ∧ ifThenLoop.liveBlocks = 5 := by
  obtain ⟨⟨creator', entry⟩, hcreate, rfl⟩ : ∃ r,
      irCreatorCreateFunction (irCreatorInit irContextInit)
        (functionAst [] .KW_VOID ifThenLoop) = some r ∧ r.2 = 0 := by
    decide +kernel
  obtain ⟨hidom, hiff⟩ := createFunction_computesDominators_iff heapClosed_irContextInit hcreate
    (by decide)
  exact ⟨creator', hcreate, hidom, hiff, rfl, rfl⟩
