/-
# The conversion preserves meaning

* `ssaRename_reaching` : `ssa_rename` ends, and along every path a load is replaced by the
  value that was assigned last, if the phis of each register are at least on the iterated
  dominance frontier of the blocks that assign it;
* `ssaConvert_preserves` : along every path the converted function computes what the function
  computed, if the first variable has all phis that it needs.
-/
import MCompiler.SsaPaths
import MCompiler.IrCreationMeaning

open FlowGraph

/-! ## Renaming -/

/-- The state in which `ssa_rename` starts: the lists of the blocks, and for every register
that is assigned or has a phi a stack, which is empty. -/
structure RenameStart (ir : Ir) (entry : ℕ) (phis : ℕ → List PhiInfo) (doms : Dominators)
    (blockInfo : ℕ → BlockInfo) (vm : VariableMap) : Prop where
  info : ∀ n b : ℕ, doms.postorder[n]? = some b → (blockInfo n).phiList = phis b ∧
    (blockInfo n).loadAssigns = loadAssigns ir (ir.blocks b) ∧ (blockInfo n).isRenamed = false
  has : ∀ b, Reachable (cfgEdge ir) entry b →
    (∀ i ∈ ir.blocks b, ∀ a, (ir.insts i).type = .assignVar a → vm.Has a) ∧
      ∀ p ∈ phis b, vm.Has p.rId
  tops : vm.tops = fun _ => none

/-- Loads and assigns are removed, and operands that named a load name the value it is
replaced by. -/
structure LoadsReplaced (ir ir' : Ir) (entry : ℕ) (value : ℕ → Value) : Prop where
  other : ∀ b, Reachable (cfgEdge ir) entry b → ∀ i ∈ ir.blocks b,
    (∀ a, (ir.insts i).type ≠ .loadVar a) → value i = .inst i
  insts : ∀ b, Reachable (cfgEdge ir) entry b → ∀ i ∈ ir.blocks b,
    ir'.insts i = { ir.insts i with uses := (ir.insts i).uses.map (Option.map (sub value)) }
  blocks : ∀ b, Reachable (cfgEdge ir) entry b →
    ∃ l, (∀ i ∈ l, (ir'.insts i).type = .phi) ∧ ir'.blocks b = l ++ remaining ir (ir.blocks b)

/-- **Reaching values.**  Along every path to a load, the value it is replaced by is the one that
was assigned last to its register. -/
def LoadsReach {V : Type} (sem : ValueSemantics V) (ir ir' : Ir) (entry : ℕ)
    (value : ℕ → Value) : Prop :=
  ∀ w b, Walk (cfgEdge ir) entry (w ++ [b]) b → ∀ pre i post a, ir.blocks b = pre ++ i :: post →
    (ir.insts i).type = .loadVar a →
    valueAt sem ir' (stateAt sem ir' w b (remaining ir pre)).results (value i) =
      (stateAt sem ir w b pre).regs a

theorem LoadsDominated.assigned {ir : Ir} {entry : ℕ} (h : LoadsDominated ir entry) :
    LoadsAssigned ir entry := by
  intro w b hw pre i post a hblock htype
  rcases h b ⟨_, hw⟩ pre i post a hblock htype with hpre | ⟨x, hx, hassign⟩
  · exact .inr hpre
  · rcases List.mem_append.mp (hx.2 _ hw) with hmem | hmem
    · exact .inl ⟨x, hmem, hassign⟩
    · exact absurd (List.mem_singleton.mp hmem) hx.1

section Preservation

variable {ir mid mid' ir' : Ir} {entry : ℕ} {phis : ℕ → List PhiInfo} {doms : Dominators}
  {r : Renaming} {done : List ℕ} {pushed : List PhiOperand}

theorem RenamedFilling.loadsReplaced
    (h : RenamedFilling ir entry phis doms r done pushed mid mid') :
    LoadsReplaced ir mid' entry r.value where
  other b _ i hi hne := h.renamed.value_eq fun a ha => hne a (by
    rwa [h.filled.insts_of_mem h.heap hi] at ha)
  insts b hb i hi := h.insts_eq hb hi
  blocks b hb := by
    obtain ⟨l, -, -, hblocks, hphi⟩ := h.blocks hb
    exact ⟨l, fun i hi => (hphi i hi).2, hblocks⟩

end Preservation

/-- **Renaming is right whenever the phis suffice.**  With a phi for each register at least on
the iterated dominance frontier of the blocks that assign it, `ssa_rename` for the entry ends,
and along every path each load is replaced by the value that was assigned last, which is
defined. -/
theorem ssaRename_reaching (ir mid : Ir) (entry : ℕ) (phis : ℕ → List PhiInfo)
    (doms : Dominators) (blockInfo : ℕ → BlockInfo) (vm : VariableMap) (fuel : ℕ)
    (hheap : HeapOk ir) (hdoms : CorrectDoms ir entry doms) (hform : SsaFunction ir entry)
    (hfree : PhiFree ir entry) (hassigned : LoadsAssigned ir entry) (hfilled : Filled ir phis mid)
    (hreg : ∀ b, ∀ p ∈ phis b, IntReg p.rId)
    (hphis : ∀ a b, IteratedFrontier (cfgEdge ir) entry (Assigning ir entry a) b →
      HasPhi phis b a)
    (hstart : RenameStart mid entry phis doms blockInfo vm) (hfuel : doms.elementCount < fuel) :
    ∃ s value, ssaRename doms fuel ⟨mid, blockInfo, vm⟩ entry = some s ∧
      LoadsReplaced ir s.ir entry value ∧
      (∀ (V : Type) (sem : ValueSemantics V), LoadsReach sem ir s.ir entry value) ∧
      (BinaryOperands ir entry → ∀ (V : Type) (sem : ValueSemantics V) w b,
        Walk (cfgEdge ir) entry (w ++ [b]) b → ∀ pre i post a, ir.blocks b = pre ++ i :: post →
          (ir.insts i).type = .loadVar a → (stateAt sem ir w b pre).regs a ≠ none) := by
  have hsuffice : PhisSuffice ir entry phis := fun a b hb _ => hphis a b hb
  have hinput := hfilled.renameForm hheap hdoms hform hreg
  have hsupplied := hfilled.loadsSupplied hheap (hsuffice.loadsSupplied hdoms hassigned)
  rcases ssaRename_renamed hinput hstart.info hstart.has hstart.tops hfuel with
    ⟨r, done, pushed, s, hrun, hrenamed, -, -⟩ | ⟨-, hnot⟩
  · have h : RenamedFilling ir entry phis doms r done pushed mid s.ir :=
      ⟨hheap, hform, hfree, hfilled, ⟨hinput, hsupplied⟩, hrenamed⟩
    refine ⟨s, r.value, hrun, h.loadsReplaced, fun V sem w b hw pre i post a hblock htype => ?_,
      fun hbin V sem w b hw pre i post a hblock htype => ?_⟩
    · exact h.load_eq hsuffice hassigned hw hblock htype
    · exact (pathDefined hheap hform hfree hbin hassigned hw hblock).regs a
        (hassigned w b hw pre i post a hblock htype)
  · exact absurd hsupplied hnot

/-! ### The function with two joins and its phis -/

/-- The phis of its two joins, and the function with them. -/
def joinPhis : ℕ → List PhiInfo :=
  Function.update (Function.update (fun _ => []) 3 [⟨0, 9⟩]) 4 [⟨0, 10⟩]

/-- The function with the first phi. -/
def filledJoin : Ir := blockInsertTop (instNewPhi nestedJoins .int64).1 3 9

@[inherit_doc joinPhis]
def filledJoins : Ir := blockInsertTop (instNewPhi filledJoin .int64).1 4 10

theorem filled_filledJoins : Filled nestedJoins joinPhis filledJoins := by
  have hfirst : Filled nestedJoins (Function.update (fun _ => []) 3 [⟨0, 9⟩]) filledJoin :=
    (Filled.start heapOk_nestedJoins).insert heapOk_nestedJoins
  exact hfirst.insert heapOk_nestedJoins

/-- What `ssa_rename` starts with: a stack for the only variable. -/
def joinStacks : VariableMap where
  regs key := if key = 0 then some { rId := 0 } else none
  list := [0]

@[inherit_doc joinStacks]
def joinInfo (n : ℕ) : BlockInfo :=
  (nestedDoms.postorder[n]?).elim {} fun b =>
    { phiList := joinPhis b, loadAssigns := loadAssigns filledJoins (filledJoins.blocks b) }

theorem renameStart_filledJoins :
    RenameStart filledJoins 0 joinPhis nestedDoms joinInfo joinStacks where
  info n b hn := by
    unfold joinInfo
    rw [hn]
    exact ⟨rfl, rfl, rfl⟩
  has b hb := by
    rw [filled_filledJoins.cfgEdge_eq heapOk_nestedJoins, reachable_nestedJoins] at hb
    have hassign : ∀ b < 5, ∀ i ∈ filledJoins.blocks b,
        ∀ a ∈ (filledJoins.insts i).type.rId, a = 0 := by decide
    have hphi : ∀ b < 5, ∀ p ∈ joinPhis b, p.rId = 0 := by decide
    have hhas : joinStacks.Has 0 := Option.some_ne_none _
    refine ⟨fun i hi a ha => ?_, fun p hp => ?_⟩
    · rw [hassign b hb i hi a (by rw [ha]; rfl)]
      exact hhas
    · rw [hphi b hb p hp]
      exact hhas
  tops := by
    funext a
    unfold VariableMap.tops getLastValueUnsafe joinStacks
    dsimp only
    split
    · split <;> rfl
    · rfl

/-- The iterated frontier holds the joins alone. -/
theorem hasPhi_joinPhis (a b : ℕ)
    (h : IteratedFrontier (cfgEdge nestedJoins) 0 (Assigning nestedJoins 0 a) b) :
    HasPhi joinPhis b a := by
  have hjoin : ∀ x, Reachable (cfgEdge nestedJoins) 0 x → Frontier (cfgEdge nestedJoins) 0 x b →
      b = 3 ∨ b = 4 := by
    intro x hx hb
    have hmem := (correctFrontiers_nestedJoins x hx b).mpr hb
    have hall : ∀ x < 5, ∀ y ∈ domfrontiersGet nestedFrontiers x, y = 3 ∨ y = 4 := by decide
    exact hall x (reachable_nestedJoins.mp hx) b hmem
  have ha : a = 0 := by
    obtain ⟨x, hx, i, hi, hia⟩ := h.exists_start
    have hall : ∀ b < 5, ∀ i ∈ nestedJoins.blocks b,
        ∀ a ∈ (nestedJoins.insts i).type.rId, a = 0 := by decide
    exact hall _ (reachable_nestedJoins.mp hx) i hi a (by rw [hia]; rfl)
  have hb : b = 3 ∨ b = 4 := by
    obtain ⟨x, hx, hxb⟩ := h.exists_frontier fun _ hx => hx.1
    exact hjoin x hx hxb
  rw [ha]
  rcases hb with rfl | rfl
  · exact ⟨_, List.mem_singleton.mpr rfl, rfl⟩
  · exact ⟨_, List.mem_singleton.mpr rfl, rfl⟩

theorem intReg_joinPhis (b : ℕ) (p : PhiInfo) (hp : p ∈ joinPhis b) : IntReg p.rId := by
  have hreg : p.rId = 0 := by
    unfold joinPhis at hp
    rw [Function.update_apply, Function.update_apply] at hp
    split at hp
    · rw [List.mem_singleton.mp hp]
    · split at hp
      · rw [List.mem_singleton.mp hp]
      · cases hp
  rw [hreg]
  decide

/-! ## The whole conversion -/

/-- **The first variable has the phis it needs**: where blocks of the iterated frontier of the
blocks that assign it may still load it, they are on the frontier of one of these blocks. -/
def FirstPhisSuffice (ir : Ir) (entry : ℕ) (doms : Dominators) : Prop :=
  ∀ a, firstVariable ir doms = some a → ∀ b,
    IteratedFrontier (cfgEdge ir) entry (Assigning ir entry a) b → Live ir a b (ir.blocks b) →
      ∃ x, Assigning ir entry a x ∧ Frontier (cfgEdge ir) entry x b

/-- **The meaning stays**: the paths are the same, and along each of them the instructions
other than phis, loads and assigns have the same operands. -/
def SameMeaning {V : Type} (sem : ValueSemantics V) (ir ir' : Ir) (entry : ℕ) : Prop :=
  ∀ w b, (Walk (cfgEdge ir') entry w b ↔ Walk (cfgEdge ir) entry w b) ∧
    (Walk (cfgEdge ir) entry w b → (runPath sem ir' w).trace = (runPath sem ir w).trace)

section Conversion

variable {ir mid mid' ir' : Ir} {entry : ℕ} {doms : Dominators} {df : DomFrontiers}
  {blockInfo : ℕ → BlockInfo} {vm : VariableMap} {phis : ℕ → List PhiInfo} {s : PlaceState}
  {r : Renaming} {done : List ℕ} {pushed : List PhiOperand}

/-- The phis that step 2 places suffice. -/
theorem Placed.phisSuffice (h : Placed ir entry doms df blockInfo vm vm.list.length phis s)
    (hdoms : CorrectDoms ir entry doms) (hform : LoadAssignForm ir entry)
    (han : Analyzed ir doms blockInfo vm) (hdf : CorrectFrontiers ir entry df)
    (hfirst : FirstPhisSuffice ir entry doms) : PhisSuffice ir entry phis := by
  intro a b hb hlive
  have hS : ∀ x, Assigning ir entry a x → Reachable (cfgEdge ir) entry x := fun x hx => hx.1
  rw [h.hasPhi_iff hdoms hform han]
  by_cases hf : firstVariable ir doms = some a
  · rw [hdf.placedAt_first hS (not_not.mpr hf)]
    exact hfirst a hf b hb hlive
  · rw [hdf.placedAt_iff hS hf]
    exact hb

theorem Converted.renamedFilling (h : Converted ir entry phis r done pushed mid mid' ir')
    (hheap : HeapOk ir) (hform : SsaFunction ir entry) (hfree : PhiFree ir entry) :
    ∃ doms, RenamedFilling ir entry phis doms r done pushed mid mid' := by
  obtain ⟨doms, hinput⟩ := h.input
  exact ⟨doms, hheap, hform, hfree, h.filled, hinput, h.renamed⟩

/-- Removing the phis without uses changes nothing that is observed. -/
theorem Converted.trace_eq (h : Converted ir entry phis r done pushed mid mid' ir') {V : Type}
    (sem : ValueSemantics V) (w : List ℕ) :
    (runPath sem ir' w).trace = (runPath sem mid' w).trace := by
  refine (runPath_removed h.only.insts h.only.consts h.blocks (fun b i _ hdrop => ?_) w).trace
  obtain ⟨⟨p, hp, rfl⟩, hnil⟩ := not_not.mp (of_decide_eq_false hdrop)
  refine ⟨?_, fun ⟨u, hu⟩ => ?_⟩
  · rw [h.renamed.rewritten.type]
    exact (h.filled.phi b p hp).2.2.1
  · have hmem := (h.renamed.rewritten.uses.mem _ u).mpr hu
    rw [hnil] at hmem
    cases hmem

end Conversion

/-- **`ssa_convert` preserves meaning if the first variable has the phis it needs.**  It ends,
and along every path the instructions that remain have the operands they had. -/
theorem ssaConvert_preserves (ir : Ir) (entry : ℕ) (doms : Dominators) (df : DomFrontiers)
    (hheap : HeapOk ir) (hdoms : CorrectDoms ir entry doms) (hform : SsaFunction ir entry)
    (hfree : PhiFree ir entry) (hdf : CorrectFrontiers ir entry df)
    (hassigned : LoadsAssigned ir entry) (hfirst : FirstPhisSuffice ir entry doms) :
    ∃ bound, ∀ fuel, bound ≤ fuel → ∃ ir', ssaConvert doms df fuel ir entry = some ir' ∧
      ∀ (V : Type) (sem : ValueSemantics V), SameMeaning sem ir ir' entry := by
  obtain ⟨bound, h⟩ := ssaConvert_converted hheap hdoms hform hdf.reachable
    fun _ _ _ _ han hplaced => (hplaced.phisSuffice hdoms hform.toLoadAssignForm han hdf
      hfirst).loadsSupplied hdoms hassigned
  refine ⟨bound, fun fuel hfuel => ?_⟩
  obtain ⟨blockInfo, vm, phis, s, r, done, pushed, mid', ir', han, -, hplaced, -, hconvert,
    hconverted⟩ := h fuel hfuel
  have hsuffice := hplaced.phisSuffice hdoms hform.toLoadAssignForm han hdf hfirst
  obtain ⟨doms', hrenamed⟩ := hconverted.renamedFilling hheap hform hfree
  refine ⟨ir', hconvert, fun V sem w b => ⟨?_, fun hw => ?_⟩⟩
  · exact (walk_congr fun a ha x => hconverted.cfgEdge_iff hheap ha x).symm
  · rw [hconverted.trace_eq sem w]
    exact hrenamed.trace_eq hsuffice hassigned hw

/-! ## Two variables -/

/-- `int64 u = 0; int64 v = 0; if (1) { if (1) v = 1; } u + v;` -/
def twoVariables : Ir :=
  irOfLists
    [⟨.assignVar 0, .void, [some (.const 0)], 0⟩,
      ⟨.assignVar 1, .void, [some (.const 0)], 0⟩,
      ⟨.jumpCond, .void, [some (.block 1), some (.block 4), some (.const 1)], 0⟩,
      ⟨.jumpCond, .void, [some (.block 2), some (.block 3), some (.const 1)], 1⟩,
      ⟨.assignVar 1, .void, [some (.const 1)], 2⟩,
      ⟨.jump, .void, [some (.block 3)], 2⟩,
      ⟨.jump, .void, [some (.block 4)], 3⟩,
      ⟨.loadVar 0, .int64, [], 4⟩,
      ⟨.loadVar 1, .int64, [], 4⟩,
      ⟨.binary .add, .int64, [some (.inst 7), some (.inst 8)], 4⟩,
      ⟨.ret, .void, [], 4⟩]
    [[0, 1, 2], [3], [4, 5], [6], [7, 8, 9, 10]] [0, 1]

theorem heapOk_twoVariables : HeapOk twoVariables := heapOk_irOfLists (by decide)

theorem chains_twoVariables : Chains twoVariables 0 5 nestedChain := by decide

theorem correctFrontiers_twoVariables : CorrectFrontiers twoVariables 0 nestedFrontiers :=
  chains_twoVariables.correctFrontiers (by decide)

/-- The first variable is assigned in the entry alone, whose frontier is empty. -/
theorem firstPhisSuffice_twoVariables : FirstPhisSuffice twoVariables 0 nestedDoms := by
  intro a ha b hb
  have ha0 : firstVariable twoVariables nestedDoms = some 0 := by decide
  obtain rfl := Option.some.inj (ha.symm.trans ha0)
  have hassigning : ∀ x, Assigning twoVariables 0 0 x → x = 0 := by
    rintro x ⟨hx, hassign⟩
    rw [chains_twoVariables.reachable_iff] at hx
    have hall : ∀ x < 5, (∃ i ∈ twoVariables.blocks x,
        (twoVariables.insts i).type = .assignVar 0) → x = 0 := by decide
    exact hall x hx hassign
  have hnone : ∀ y, ¬ Frontier (cfgEdge twoVariables) 0 0 y := by
    intro y hy
    have hmem := (correctFrontiers_twoVariables 0 .root y).mpr hy
    cases hmem
  exfalso
  induction hb with
  | base hx hy => exact hnone _ (hassigning _ hx ▸ hy)
  | step _ _ ih => exact ih

/-! ## Two joins in a row -/

/-- The path through both conditional blocks. -/
theorem walk_nestedJoins : Walk (cfgEdge nestedJoins) 0 [0, 1, 2, 3, 4] 4 := by
  have hE : ∀ a b, b ∈ blockSuccessors nestedJoins a → cfgEdge nestedJoins a b := fun _ _ h => h
  have h₁ : Walk (cfgEdge nestedJoins) 0 [0, 1] 1 := .step .root (hE 0 1 (by decide))
  have h₂ : Walk (cfgEdge nestedJoins) 0 [0, 1, 2] 2 := .step h₁ (hE 1 2 (by decide))
  have h₃ : Walk (cfgEdge nestedJoins) 0 [0, 1, 2, 3] 3 := .step h₂ (hE 2 3 (by decide))
  exact .step h₃ (hE 3 4 (by decide))

/-- **A miscompiled function.**  On the path through both conditional blocks the sum is
`1 + 0`, and after the conversion `0 + 0`. -/
theorem ssaConvert_not_preserves : HeapOk nestedJoins ∧ CorrectDoms nestedJoins 0 nestedDoms ∧
    SsaFunction nestedJoins 0 ∧ PhiFree nestedJoins 0 ∧
    CorrectFrontiers nestedJoins 0 nestedFrontiers ∧ LoadsAssigned nestedJoins 0 ∧
    ¬ ∃ bound, ∀ fuel, bound ≤ fuel →
      ∃ ir', ssaConvert nestedDoms nestedFrontiers fuel nestedJoins 0 = some ir' ∧
        ∀ (V : Type) (sem : ValueSemantics V), SameMeaning sem nestedJoins ir' 0 := by
  refine ⟨heapOk_nestedJoins, correctDoms_nestedJoins, ssaFunction_nestedJoins,
    phiFree_nestedJoins, correctFrontiers_nestedJoins, loadsDominated_nestedJoins.assigned, ?_⟩
  rintro ⟨bound, h⟩
  obtain ⟨ir', hconvert, hsame⟩ := h (max bound 10) (le_max_left _ _)
  have hrun : (ssaConvert nestedDoms nestedFrontiers 10 nestedJoins 0).map (fun ir' =>
      (runPath int64Semantics ir' [0, 1, 2, 3, 4]).trace[4]?) =
        some (some (7, [some 0, some 0])) := by decide
  obtain ⟨ir'', hconvert', htrace'⟩ := Option.map_eq_some_iff.mp hrun
  have hmore := ssaConvert_mono (le_max_right bound 10) hconvert'
  obtain rfl := Option.some.inj (hmore.symm.trans hconvert)
  have htrace : (runPath int64Semantics nestedJoins [0, 1, 2, 3, 4]).trace[4]? =
      some (7, [some 1, some 0]) := by decide
  rw [(hsame Int64 int64Semantics _ 4).2 walk_nestedJoins, htrace] at htrace'
  revert htrace'
  decide
