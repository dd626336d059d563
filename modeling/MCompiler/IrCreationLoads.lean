/-
# The loads of created functions

A variable in scope has been assigned in the current block, or in a gate that the current
block is behind (`Supplies`).  Each statement keeps this, so that in well-scoped statements
every load is covered by an assign before it (`createStatements_loads`).
-/
import MCompiler.IrCreationEdges

open FlowGraph

/-- An assign of the register `a` is among the instructions `l`. -/
def AssignedIn (ir : Ir) (l : List ℕ) (a : ℕ) : Prop :=
  ∃ j ∈ l, (ir.insts j).type = .assignVar a

/-- The register `a` has a value for what the creator makes next, in the current block and
in the blocks up to `hi` : it is assigned in the current block, or in a gate before it. -/
def Supplies (ir : Ir) (base : ℕ) (c : IrCreator) (hi a : ℕ) : Prop :=
  AssignedIn c.ctx (c.ctx.blocks c.block) a ∨
    ∃ p lo hi', base ≤ p ∧ Gate ir p lo hi' ∧ lo ≤ c.block ∧ hi ≤ hi' ∧
      AssignedIn ir (ir.blocks p) a

/-- A load in the block `b`, after the instructions `pre`, has an assign before it. -/
def Covered (ir : Ir) (base b : ℕ) (pre : List ℕ) (a : ℕ) : Prop :=
  AssignedIn ir pre a ∨
    ∃ p lo hi, base ≤ p ∧ Gate ir p lo hi ∧ lo ≤ b ∧ b < hi ∧ AssignedIn ir (ir.blocks p) a

/-- The loads among the instructions from `i₀` to `i₁` have an assign before them. -/
def LoadsCovered (ir : Ir) (base i₀ i₁ : ℕ) : Prop :=
  ∀ b pre i post a, ir.blocks b = pre ++ i :: post → i₀ ≤ i → i < i₁ →
    (ir.insts i).type = .loadVar a → Covered ir base b pre a

section Loads

variable {S T S' T' : ℕ → Prop} {ir ir₁ ir' : Ir} {base : ℕ}

theorem LoadsCovered.trans {i₀ i₁ i₂ : ℕ} (h : LoadsCovered ir base i₀ i₁)
    (h' : LoadsCovered ir base i₁ i₂) : LoadsCovered ir base i₀ i₂ := by
  intro b pre i post a hblock hge hlt htype
  by_cases hi : i < i₁
  · exact h b pre i post a hblock hge hi htype
  · exact h' b pre i post a hblock (Nat.le_of_not_lt hi) hlt htype

/-- Instructions that are no loads. -/
theorem LoadsCovered.of_none {i₀ i₁ : ℕ} (h : Builds S T ir₁ ir')
    (hlt : i₁ ≤ ir₁.instCount)
    (htype : ∀ i, i₀ ≤ i → i < i₁ → ∀ a, (ir₁.insts i).type ≠ .loadVar a) :
    LoadsCovered ir' base i₀ i₁ := by
  intro b pre i post a _ hge hlt' hload
  rw [h.grows.insts i (Nat.lt_of_lt_of_le hlt' hlt)] at hload
  exact absurd hload (htype i hge hlt' a)

theorem AssignedIn.later {a b : ℕ} (h : AssignedIn ir (ir.blocks b) a) (hheap : HeapClosed ir)
    (hb : b < ir.blockCount) (hbuilds : Builds S T ir ir') : AssignedIn ir' (ir'.blocks b) a := by
  obtain ⟨j, hj, htype⟩ := h
  refine ⟨j, (hbuilds.grows.blocks b hb).subset hj, ?_⟩
  rw [hbuilds.grows.insts j (hheap.allocated b j hj)]
  exact htype

/-! ## What is supplied -/

variable {c c' d : IrCreator} {hi hi' a : ℕ}

/-- In the same block. -/
theorem Supplies.of_stays (h : Supplies ir base c hi a) (hheap : HeapClosed c.ctx)
    (hb : c.block < c.ctx.blockCount) (hstays : StaysIn c c') : Supplies ir base c' hi a := by
  rcases h with hassigned | hgate
  · refine .inl ?_
    rw [hstays.block]
    exact hassigned.later hheap hb (hstays.builds fun _ => False)
  · exact .inr (hstays.block.symm ▸ hgate)

/-- In the blocks behind the current one. -/
theorem Supplies.behind (h : Supplies ir base c hi a) (hheap : HeapClosed c.ctx)
    (hbase : base ≤ c.block) (hgate : Gate ir c.block c.ctx.blockCount hi)
    (hbuilds : Builds S T c.ctx ir) (hd : c.ctx.blockCount ≤ d.block) (hhi : hi' ≤ hi) :
    Supplies ir base d hi' a := by
  have hb := hgate.1
  rcases h with hassigned | ⟨p, lo, hi'', hbase', hgate', hlo, hhi', hassigned⟩
  · exact .inr ⟨c.block, _, hi, hbase, hgate, hd, hhi, hassigned.later hheap hb hbuilds⟩
  · exact .inr ⟨p, lo, hi'', hbase', hgate', by omega, by omega, hassigned⟩

/-- A load of a supplied register is covered. -/
theorem Supplies.covered (h : Supplies ir base c hi a) (hheap : HeapClosed c.ctx)
    (hb : c.block < c.ctx.blockCount) (hhi : c.ctx.blockCount ≤ hi) (hbuilds : Builds S T c.ctx ir)
    {pre post : List ℕ} {i : ℕ} (hblock : ir.blocks c.block = pre ++ i :: post)
    (hi' : c.ctx.instCount ≤ i) : Covered ir base c.block pre a := by
  rcases h with ⟨j, hj, htype⟩ | ⟨p, lo, hi'', hbase, hgate, hlo, hhi', hassigned⟩
  · -- the instructions that the block had stand before the load
    have hprefix := hbuilds.grows.blocks c.block hb
    rw [hblock, ← List.singleton_append, ← List.append_assoc] at hprefix
    have hnew : i ∉ c.ctx.blocks c.block := fun hold =>
      absurd (hheap.allocated _ i hold) (Nat.not_lt_of_le hi')
    have hpre : c.ctx.blocks c.block <+: pre ++ [i] := by
      refine (List.prefix_or_prefix_of_prefix hprefix (List.prefix_append _ _)).resolve_right ?_
      exact fun hlong => hnew (hlong.subset (by simp))
    refine .inl ⟨j, ?_, ?_⟩
    · rcases List.mem_append.mp (hpre.subset hj) with hmem | hmem
      · exact hmem
      · exact absurd (List.mem_singleton.mp hmem ▸ hj) hnew
    · rw [hbuilds.grows.insts j (hheap.allocated _ j hj)]
      exact htype
  · exact .inr ⟨p, lo, hi'', hbase, hgate, hlo, by omega, hassigned⟩

end Loads

/-! ## Expressions -/

/-- The loads of an expression are those of its variables. -/
theorem createValue_loads {P : ℕ → Prop} {e : Expression} {c c' : IrCreator} {v : Value}
    (hb : c.block < c.ctx.blockCount) (h : createValue c e.toAst = some (c', v))
    (hP : ∀ varName, e.Mentions varName → ∀ var, findReg c.blockInfo varName = some var → P var.rId) :
    ∀ i, c.ctx.instCount ≤ i → i < c'.ctx.instCount → ∀ a,
      (c'.ctx.insts i).type = .loadVar a → P a := by
  induction e generalizing c c' v with
  | number num =>
      rw [Expression.toAst, createValue_number] at h
      cases h
      exact fun i hge hlt => absurd hlt (Nat.not_lt_of_le hge)
  | var varName =>
      obtain ⟨var, hvar, hr⟩ := createValue_variable.mp h
      cases hr
      intro i hge hlt a htype
      have hi : i = c.ctx.instCount := Nat.le_antisymm (Nat.le_of_lt_succ hlt) hge
      have htype' : ((c.ctx.emit c.block (.loadVar var.rId) (convertDataType var.dataType) []).insts
          i).type = .loadVar a := htype
      rw [hi, emit_insts_self] at htype'
      obtain rfl := InstType.loadVar.inj htype'
      exact hP varName rfl var hvar
  | binary op left right ihl ihr =>
      obtain ⟨c₁, l, c₂, x, hl, hx, -, hr⟩ := createValue_binary.mp h
      cases hr
      have hleft := createValue_created hb hl
      have hb₁ : c₁.block < c₁.ctx.blockCount := by
        rw [hleft.block, hleft.blockCount]
        exact hb
      have hright := createValue_created hb₁ hx
      intro i hge hlt a htype
      have htype' : ((c₂.ctx.emit c₂.block (.binary op) (c₂.ctx.dataType l) [some l, some x]).insts
          i).type = .loadVar a := htype
      have hlt' : i < c₂.ctx.instCount + 1 := hlt
      by_cases hi : i = c₂.ctx.instCount
      · rw [hi, emit_insts_self] at htype'
        cases htype'
      · rw [emit_insts_of_ne _ _ _ _ _ hi] at htype'
        by_cases hi₁ : i < c₁.ctx.instCount
        · rw [hright.grows.insts i hi₁] at htype'
          exact ihl hb hl (fun varName hm => hP varName (.inl hm)) i hge hi₁ a htype'
        · refine ihr hb₁ hx (fun varName hm => ?_) i (Nat.le_of_not_lt hi₁) (by omega) a htype'
          rw [hleft.blockInfo]
          exact hP varName (.inr hm)

/-- The loads of an expression whose variables are supplied. -/
theorem createValue_covered {S T : ℕ → Prop} {ir : Ir} {base hi : ℕ} {e : Expression}
    {c c' : IrCreator} {v : Value} (hb : c.block < c.ctx.blockCount) (hheap : HeapClosed c.ctx)
    (h : createValue c e.toAst = some (c', v)) (hhi : c.ctx.blockCount ≤ hi)
    (hbuilds : Builds S T c'.ctx ir)
    (hsup : ∀ varName, e.Mentions varName → ∀ var, findReg c.blockInfo varName = some var →
      Supplies ir base c hi var.rId) : LoadsCovered ir base c.ctx.instCount c'.ctx.instCount := by
  intro b pre i post a hblock hge hlt htype
  have hvalue := (createValue_builds (fun _ => False) hb hheap h).1
  obtain ⟨rfl, -⟩ := hvalue.mem_between hheap hbuilds (by rw [hblock]; simp) hge hlt
  rw [hbuilds.grows.insts i hlt] at htype
  exact (createValue_loads hb h hsup i hge hlt a htype).covered hheap hb hhi
    (hvalue.any.trans hbuilds.any) hblock hge

/-- The loads of an assignment, and the register that it assigns. -/
theorem createAssignment_covered {S T : ℕ → Prop} {ir : Ir} {base hi : ℕ} {varName : Range}
    {e : Expression} {c c₁ : IrCreator} (hb : c.block < c.ctx.blockCount)
    (hheap : HeapClosed c.ctx) (h : createAssignment c (.variable varName false) e.toAst = some c₁)
    (hhi : c.ctx.blockCount ≤ hi) (hbuilds : Builds S T c₁.ctx ir)
    (hsup : ∀ name, e.Mentions name → ∀ var, findReg c.blockInfo name = some var →
      Supplies ir base c hi var.rId) :
    LoadsCovered ir base c.ctx.instCount c₁.ctx.instCount ∧
      ∀ var, findReg c.blockInfo varName = some var →
        AssignedIn c₁.ctx (c₁.ctx.blocks c₁.block) var.rId := by
  obtain ⟨var, c₀, v, hvar, hv, rfl⟩ := createAssignment_eq_some.mp h
  have hval := createValue_created hb hv
  obtain ⟨hvalue, hop⟩ := createValue_builds (fun _ => False) hb hheap hv
  have hb₀ : c₀.block < c₀.ctx.blockCount := by
    rw [hval.block, hval.blockCount]
    exact hb
  rw [← hval.block] at hop
  have hemit : Builds (fun _ => True) (fun _ => True) c₀.ctx
      (c₀.emit (.assignVar var.rId) .void [some v]).ctx :=
    .emit .void .refl hb₀ trivial (.assign var.rId hop) fun _ _ => trivial
  have hself : ((c₀.emit (.assignVar var.rId) .void [some v]).ctx.insts c₀.ctx.instCount).type =
      .assignVar var.rId := by
    unfold IrCreator.emit
    rw [emit_insts_self]
  constructor
  · refine (createValue_covered hb hheap hv hhi (hemit.trans hbuilds.any) hsup).trans
      (.of_none hbuilds (Nat.le_refl _) fun i hge hlt a => ?_)
    have hi : i = c₀.ctx.instCount := Nat.le_antisymm (Nat.le_of_lt_succ hlt) hge
    rw [hi, hself]
    exact InstType.noConfusion
  · intro var' hvar'
    obtain rfl := Option.some.inj (hvar.symm.trans hvar')
    exact ⟨c₀.ctx.instCount, (mem_blocks_emit _ _ _ _ _).mpr (.inr ⟨rfl, rfl⟩), hself⟩

/-! ## Jumps are no loads -/

theorem endIf_types (c inner : IrCreator) (v : Value) {i : ℕ} (hge : inner.ctx.instCount ≤ i)
    (hlt : i < (c.endIf inner v).ctx.instCount) (a : ℕ) :
    ((c.endIf inner v).ctx.insts i).type ≠ .loadVar a := by
  have hlt' : i < inner.ctx.instCount + 2 := hlt
  unfold IrCreator.endIf
  dsimp only
  by_cases hi : i = inner.ctx.instCount
  · rw [emit_insts_of_ne _ _ _ _ _ (show i ≠ inner.ctx.instCount + 1 by omega), hi]
    rw [show inner.ctx.instCount = (blockNew inner.ctx).1.instCount from rfl, emit_insts_self]
    exact InstType.noConfusion
  · have hi' : i = ((blockNew inner.ctx).1.emit c.block .jumpCond .void
        [some (.block c.ctx.blockCount), some (.block inner.ctx.blockCount), some v]).instCount := by
      show i = inner.ctx.instCount + 1
      omega
    rw [hi', emit_insts_self]
    exact InstType.noConfusion

/-- The last instruction that was emitted. -/
theorem emit_types (ir : Ir) {b : ℕ} {type : InstType} {dataType : DataType}
    {uses : List (Option Value)} (htype : type.isJump) {i : ℕ} (hge : ir.instCount ≤ i)
    (hlt : i < (ir.emit b type dataType uses).instCount) (a : ℕ) :
    ((ir.emit b type dataType uses).insts i).type ≠ .loadVar a := by
  have hi : i = ir.instCount := Nat.le_antisymm (Nat.le_of_lt_succ hlt) hge
  rw [hi, emit_insts_self]
  rintro rfl
  cases htype

/-! ## Statements -/

/-- A new variable in the innermost map. -/
theorem findReg_createReg {c c₁ : IrCreator} {varName name : Range} {dataType : TokenType}
    (h : createReg c varName dataType = some c₁) {var : CreatorVariable}
    (hvar : findReg c₁.blockInfo name = some var) :
    name = varName ∨ findReg c.blockInfo name = some var := by
  obtain ⟨m, ms, hinfo, -, rfl⟩ := createReg_eq_some.mp h
  by_cases hname : name = varName
  · exact .inl hname
  · refine .inr ?_
    rw [findReg, Function.update_of_ne hname] at hvar
    rw [hinfo, findReg]
    exact hvar

theorem findReg_enterBlock {c : IrCreator} {name : Range} :
    findReg c.enterBlock.blockInfo name = findReg c.blockInfo name := rfl

/-- What is known when statements begin: every variable in scope is supplied. -/
def ScopeSupplied (ir : Ir) (base : ℕ) (c : IrCreator) (hi : ℕ) : Prop :=
  ∀ name var, findReg c.blockInfo name = some var → Supplies ir base c hi var.rId

theorem ScopeSupplied.of_stays {ir : Ir} {base hi : ℕ} {c c₁ : IrCreator}
    (h : ScopeSupplied ir base c hi) (hheap : HeapClosed c.ctx) (hb : c.block < c.ctx.blockCount)
    (hstays : StaysIn c c₁)
    (hinfo : ∀ name, findReg c₁.blockInfo name = findReg c.blockInfo name) :
    ScopeSupplied ir base c₁ hi := by
  intro name var hvar
  rw [hinfo] at hvar
  exact (h name var hvar).of_stays hheap hb hstays

theorem ScopeSupplied.behind {S T : ℕ → Prop} {ir : Ir} {base hi hi' : ℕ} {c d : IrCreator}
    (h : ScopeSupplied ir base c hi) (hheap : HeapClosed c.ctx) (hbase : base ≤ c.block)
    (hgate : Gate ir c.block c.ctx.blockCount hi) (hbuilds : Builds S T c.ctx ir)
    (hd : c.ctx.blockCount ≤ d.block) (hhi : hi' ≤ hi)
    (hinfo : ∀ name, findReg d.blockInfo name = findReg c.blockInfo name) :
    ScopeSupplied ir base d hi' := by
  intro name var hvar
  rw [hinfo] at hvar
  exact (h name var hvar).behind hheap hbase hgate hbuilds hd hhi

/-- The creator leaves no load of the statements uncovered, wherever it makes them. -/
def CoversLoads (base : ℕ) (ir : Ir) (ss : Statements) : Prop :=
  ∀ {c c' : IrCreator} {scopes : Scopes} {n : ℕ}, ss.WellScoped scopes n →
    c.block < c.ctx.blockCount → HeapClosed c.ctx → createStatements c ss.toAst = some c' →
    Later c c' ir → base ≤ c.block → ScopeSupplied ir base c c'.ctx.blockCount →
    LoadsCovered ir base c.ctx.instCount c'.ctx.instCount

section Statements

variable {base : ℕ} {ir : Ir} {body rest : Statements}

theorem coversLoads_assign {varName : Range} {value : Expression}
    (ih : CoversLoads base ir rest) : CoversLoads base ir (.assign varName value rest) := by
  intro c c' scopes n hscoped hb hheap h hlater hbase hsup
  have hcount' := (createStatements_builds hb hheap h).grows.blockCount
  obtain ⟨c₁, hassign, hrest⟩ := createStatements_cons.mp h
  have hassign' := createStatement_assign.mp hassign
  obtain ⟨-, -, hinfo, -⟩ := createAssignment_created hb hassign'
  have hstays := staysIn_assignment hb hheap hassign'
  have hb₁ := hstays.block_lt hb
  have hheap₁ := hstays.heap hheap
  have hlater₁ := hlater.of_stays hstays
  have hrest' := createStatements_builds hb₁ hheap₁ hrest
  have hsup₁ := hsup.of_stays hheap hb hstays fun name => by rw [hinfo]
  obtain ⟨hloads, -⟩ := createAssignment_covered hb hheap hassign' hcount'
    (hrest'.any.trans hlater.any) fun name _ => hsup name
  exact hloads.trans
    (ih hscoped.2.2 hb₁ hheap₁ hrest hlater₁ (hstays.block.symm ▸ hbase) hsup₁)

/-- The initialiser mentions only the old variables. -/
theorem coversLoads_declare {dataType : TokenType} {op : TokenType} {varName : Range}
    {value : Expression} (ih : CoversLoads base ir rest) :
    CoversLoads base ir (.declare dataType op varName value rest) := by
  intro c c' scopes n hscoped hb hheap h hlater hbase hsup
  have hcount' := (createStatements_builds hb hheap h).grows.blockCount
  obtain ⟨c₂, hdeclare, hrest⟩ := createStatements_cons.mp h
  obtain ⟨c₁, hreg, hassign⟩ := createStatement_declare.mp hdeclare
  obtain ⟨hblock, hctx, -⟩ := createReg_scopes hreg
  obtain ⟨-, -, -, hmention, hscoped'⟩ := hscoped
  have hb₁ : c₁.block < c₁.ctx.blockCount := by
    rw [hblock, hctx]
    exact hb
  obtain ⟨-, -, hinfo, -⟩ := createAssignment_created hb₁ hassign
  have hheap₁ : HeapClosed c₁.ctx := hctx ▸ hheap
  have hstays := staysIn_assignment hb₁ hheap₁ hassign
  have hb₂ := hstays.block_lt hb₁
  have hheap₂ := hstays.heap hheap₁
  have hrest' := createStatements_builds hb₂ hheap₂ hrest
  have hlater₂ := hlater.of_stays (staysIn_declaration hb hheap hreg hassign)
  have hold : ∀ name, name ≠ varName → ∀ var, findReg c₁.blockInfo name = some var →
      Supplies ir base c₁ c'.ctx.blockCount var.rId := by
    intro name hname var hvar
    have hvar' := (findReg_createReg hreg hvar).resolve_left hname
    have hsup' := hsup name var hvar'
    unfold Supplies at hsup' ⊢
    rwa [hctx, hblock]
  obtain ⟨hloads, hassigned⟩ := createAssignment_covered hb₁ hheap₁ hassign
    (by rw [hctx]; exact hcount') (hrest'.any.trans hlater.any) fun name hname =>
      hold name (by rintro rfl; exact hmention hname)
  have hsup₂ : ScopeSupplied ir base c₂ c'.ctx.blockCount := by
    intro name var hvar
    rw [hinfo] at hvar
    by_cases hname : name = varName
    · subst hname
      exact .inl (hassigned var hvar)
    · exact (hold name hname var hvar).of_stays hheap₁ hb₁ hstays
  rw [← hctx]
  exact hloads.trans (ih hscoped' hb₂ hheap₂ hrest hlater₂
    (by rw [hstays.block, hblock]; exact hbase) hsup₂)

/-- The body and the rest are behind the current block. -/
theorem coversLoads_ifThen {condition : Expression} (ihbody : CoversLoads base ir body)
    (ihrest : CoversLoads base ir rest) : CoversLoads base ir (.ifThen condition body rest) := by
  intro c c' scopes n hscoped hb hheap h hlater hbase hsup
  have hcount' := (createStatements_builds hb hheap h).grows.blockCount
  have hgate := createStatements_gate hb hheap h hlater
  obtain ⟨c₂, hif, hrest⟩ := createStatements_cons.mp h
  obtain ⟨c₁, v, inner, hv, hinner, rfl⟩ := createStatement_if.mp hif
  have hval := createValue_created hb hv
  have hbuilt := createIf_built hb hheap hv hinner
  have hb₂ : (c₁.endIf inner v).block < (c₁.endIf inner v).ctx.blockCount := Nat.lt_succ_self _
  have hrest' := createStatements_builds hb₂ hbuilt.end_heap hrest
  have hcur := (createStatements_created hb₂ hrest).block_cases
  have hbodyinfo := (createStatements_created (c := c₁.enterBlock) (Nat.lt_succ_self _)
    hinner).blockInfo
  have hlater₁ := hbuilt.later_body hb hrest' hcur hlater
  have hlater₂ := hbuilt.later_rest hlater
  have hcount := hbuilt.count
  have hblockCount := hbuilt.blockCount
  have hcount₂ : inner.ctx.blockCount + 1 ≤ c'.ctx.blockCount := hrest'.grows.blockCount
  have hall : Builds (fun _ => True) (fun _ => True) c₁.ctx ir :=
    (Builds.block .refl).trans (hbuilt.body.any.trans hlater₁.any)
  have hbuilds := hbuilt.value.any.trans hall
  have hsup₁ : ScopeSupplied ir base c₁.enterBlock inner.ctx.blockCount := by
    refine hsup.behind hheap hbase hgate hbuilds (Nat.le_of_eq hblockCount.symm)
      (Nat.le_of_succ_le hcount₂) fun name => ?_
    rw [findReg_enterBlock, hval.blockInfo]
  have hsup₂ : ScopeSupplied ir base (c₁.endIf inner v) c'.ctx.blockCount := by
    refine hsup.behind hheap hbase hgate hbuilds ?_ (Nat.le_refl _) fun name => ?_
    · show c.ctx.blockCount ≤ inner.ctx.blockCount
      omega
    · show findReg inner.blockInfo.tail name = _
      rw [hbodyinfo]
      show findReg c₁.blockInfo name = _
      rw [hval.blockInfo]
  have hloads := createValue_covered hb hheap hv hcount' hall fun name _ => hsup name
  have hloads₁ := ihbody (c := c₁.enterBlock) hscoped.2.1 (Nat.lt_succ_self _)
    hbuilt.enter_heap hinner hlater₁ (by show base ≤ c₁.ctx.blockCount; omega) hsup₁
  have hjumps : LoadsCovered ir base inner.ctx.instCount (c₁.endIf inner v).ctx.instCount :=
    .of_none (hrest'.any.trans hlater.any) (Nat.le_refl _) fun i => endIf_types c₁ inner v
  have hloads₂ := ihrest hscoped.2.2 hb₂ hbuilt.end_heap hrest hlater₂
    (by show base ≤ inner.ctx.blockCount; omega) hsup₂
  exact hloads.trans (LoadsCovered.trans hloads₁ (hjumps.trans hloads₂))

/-- The body, the condition and the rest are behind the current block. -/
theorem coversLoads_whileDo {condition : Expression} (ihbody : CoversLoads base ir body)
    (ihrest : CoversLoads base ir rest) : CoversLoads base ir (.whileDo condition body rest) := by
  intro c c' scopes n hscoped hb hheap h hlater hbase hsup
  have hgate := createStatements_gate hb hheap h hlater
  obtain ⟨c₂, hwhile, hrest⟩ := createStatements_cons.mp h
  obtain ⟨inner, c₁, v, hinner, hv, rfl⟩ := createStatement_while.mp hwhile
  have hbuilt := createWhile_built hb hheap hinner hv
  have hcount := hbuilt.count
  have hcount₁ : (c.endLoop inner c₁ v).ctx.blockCount = inner.ctx.blockCount + 1 :=
    hbuilt.blockCount
  have hb₂ := hbuilt.block_lt
  have hcreated := createStatements_created (c := c.enterLoop.enterBlock) (Nat.lt_succ_self _)
    hinner
  have hhead := hcreated.loopHead_lt
  have hval := createValue_created hhead hv
  have hrest' := createStatements_builds hb₂ hbuilt.end_heap hrest
  have hcur := (createStatements_created hb₂ hrest).block_cases
  have hbodyinfo : inner.blockInfo.tail = c.blockInfo := hcreated.blockInfo
  have hlater₁ := hbuilt.later_body hrest' hcur hlater
  have hlater₂ := hbuilt.later_rest hlater
  have hcount₂ := hrest'.grows.blockCount
  rw [hcount₁] at hcount₂
  have hend := hrest'.any.trans hlater.any
  have hcond := hbuilt.finish.any.trans hend
  have hvalue := hbuilt.value.any.trans hcond
  have hloop : Builds (fun _ => True) (fun _ => True) c.enterLoop.ctx ir :=
    (Builds.block .refl).trans ((hbuilt.body.any.trans hbuilt.back.any).trans hvalue)
  have hbuilds := hbuilt.start.any.trans hloop
  have hbehind : ∀ (d : IrCreator) (hi : ℕ), c.ctx.blockCount ≤ d.block →
      hi ≤ c'.ctx.blockCount → (∀ name, findReg d.blockInfo name = findReg c.blockInfo name) →
      ScopeSupplied ir base d hi := fun d hi hd hhi hinfo =>
    hsup.behind hheap hbase hgate hbuilds hd hhi hinfo
  have hsup₁ : ScopeSupplied ir base c.enterLoop.enterBlock inner.ctx.blockCount :=
    hbehind _ _ (Nat.le_succ _) (by omega) fun name => rfl
  have hsup₂ : ScopeSupplied ir base (c.loopHead inner) c'.ctx.blockCount := by
    refine hbehind _ _ (Nat.le_refl _) (Nat.le_refl _) fun name => ?_
    show findReg inner.blockInfo.tail name = _
    rw [hbodyinfo]
  have hsup₃ : ScopeSupplied ir base (c.endLoop inner c₁ v) c'.ctx.blockCount := by
    refine hbehind _ _ ?_ (Nat.le_refl _) fun name => ?_
    · show c.ctx.blockCount ≤ inner.ctx.blockCount
      omega
    · show findReg c₁.blockInfo name = _
      rw [hval.blockInfo]
      show findReg inner.blockInfo.tail name = _
      rw [hbodyinfo]
  have hjump : LoadsCovered ir base c.ctx.instCount c.enterLoop.ctx.instCount :=
    .of_none hloop (Nat.le_refl _) fun i hge hlt => emit_types (blockNew c.ctx).1 rfl hge hlt
  have hloads₁ := ihbody (c := c.enterLoop.enterBlock) hscoped.2.1 (Nat.lt_succ_self _)
    hbuilt.enter_heap hinner hlater₁ (by show base ≤ c.ctx.blockCount + 1; omega) hsup₁
  have hback : LoadsCovered ir base inner.ctx.instCount (c.loopHead inner).ctx.instCount :=
    .of_none hvalue (Nat.le_refl _) fun i hge hlt => emit_types inner.ctx rfl hge hlt
  have hloads₂ := createValue_covered hhead hbuilt.head_heap hv
    (show inner.ctx.blockCount + 1 ≤ c'.ctx.blockCount from hcount₂) hcond fun name _ =>
      hsup₂ name
  have hcjump : LoadsCovered ir base c₁.ctx.instCount (c.endLoop inner c₁ v).ctx.instCount :=
    .of_none hend (Nat.le_refl _) fun i hge hlt => emit_types c₁.ctx rfl hge hlt
  have hloads₃ := ihrest hscoped.2.2 hb₂ hbuilt.end_heap hrest hlater₂
    (by show base ≤ inner.ctx.blockCount; omega) hsup₃
  exact hjump.trans (LoadsCovered.trans hloads₁ (hback.trans (hloads₂.trans
    (hcjump.trans hloads₃))))

theorem coversLoads_ret (ih : CoversLoads base ir rest) : CoversLoads base ir (.ret rest) := by
  intro c c' scopes n hscoped hb hheap h hlater hbase hsup
  obtain ⟨c₁, hret, hrest⟩ := createStatements_cons.mp h
  rw [createStatement_return] at hret
  cases hret
  have hstays := staysIn_return hb
  have hb₁ := hstays.block_lt hb
  have hheap₁ := hstays.heap hheap
  have hrest' := createStatements_builds hb₁ hheap₁ hrest
  have hret : LoadsCovered ir base c.ctx.instCount (c.emit .ret .void []).ctx.instCount := by
    refine .of_none (hrest'.any.trans hlater.any) (Nat.le_refl _) fun i hge hlt a => ?_
    have hi : i = c.ctx.instCount := Nat.le_antisymm (Nat.le_of_lt_succ hlt) hge
    unfold IrCreator.emit
    rw [hi, emit_insts_self]
    exact InstType.noConfusion
  exact hret.trans (ih hscoped hb₁ hheap₁ hrest hlater hbase
    (hsup.of_stays hheap hb hstays fun _ => rfl))

end Statements

/-- **The loads of well-scoped statements have an assign before them.** -/
theorem createStatements_loads (base : ℕ) (ir : Ir) (ss : Statements) :
    CoversLoads base ir ss := by
  induction ss with
  | done =>
      intro c c' scopes n hscoped hb hheap h hlater hbase hsup
      cases h
      exact fun b pre i post a _ hge hlt => absurd hlt (Nat.not_lt_of_le hge)
  | assign varName value rest ih => exact coversLoads_assign ih
  | declare dataType op varName value rest ih => exact coversLoads_declare ih
  | ifThen condition body rest ihbody ihrest => exact coversLoads_ifThen ihbody ihrest
  | whileDo condition body rest ihbody ihrest => exact coversLoads_whileDo ihbody ihrest
  | ret rest ih => exact coversLoads_ret ih
  | other node hignored rest _ => intro _ _ _ _ hscoped; exact absurd hscoped id
