/-
# What the conversion guarantees within its buffers

The guarantees of `ssa_rename` and `ssa_convert` hold for the functions that fit their buffers, and
for no others: a value, pair or pointer that is stored past the end of a buffer leaves nothing to
say about the function.

* `storedRuns_iff` : a conversion that ends with a guarantee does so within its buffers if and only
  if `ConversionFits`.
* `manyJumps` : a join of 17 edges in the form of the conversion, which does not fit.
-/
import MCompiler.SsaFits

open FlowGraph

section Runs

variable {ir ir' : Ir} {entry fuel steps : ℕ} {doms : Dominators} {df : DomFrontiers}
  {blockInfo : ℕ → BlockInfo} {vm : VariableMap} {s : PlaceState}

/-- Step 2 within its buffers is step 2. -/
theorem placePhis_of_stored (h : placePhisStored doms df ir blockInfo vm = some s)
    (hsteps : 126 ≤ steps) : placePhis doms df steps ir blockInfo vm = some s := by
  obtain ⟨t, ht, h₁⟩ := Option.bind_eq_some_iff.mp h
  obtain ⟨_, -, heq⟩ := Option.bind_eq_some_iff.mp h₁
  obtain rfl := Option.some.inj heq
  exact placePhis_mono hsteps ht

/-- The steps 1 and 2 of a conversion within its buffers. -/
theorem ssaConvertStored_placed (h : ssaConvertStored doms df fuel ir entry = some ir') :
    ∃ blockInfo vm s, analyzeBlocks ir doms = some (blockInfo, vm) ∧
      placePhisStored doms df ir blockInfo vm = some s := by
  obtain ⟨⟨blockInfo, vm⟩, hanalyze, h₁⟩ := Option.bind_eq_some_iff.mp h
  obtain ⟨_, -, h₂⟩ := Option.bind_eq_some_iff.mp h₁
  obtain ⟨s, hs, -⟩ := Option.bind_eq_some_iff.mp h₂
  exact ⟨blockInfo, vm, s, hanalyze, hs⟩

/-- What steps 1 and 2 of a conversion end with, they end with within the buffers. -/
theorem placed_of_stored (h : ssaConvertStored doms df fuel ir entry = some ir')
    (hsteps : 126 ≤ steps) (hanalyze : analyzeBlocks ir doms = some (blockInfo, vm))
    (hplace : placePhis doms df steps ir blockInfo vm = some s) :
    placePhisStored doms df ir blockInfo vm = some s := by
  obtain ⟨blockInfo', vm', s', hanalyze', hs'⟩ := ssaConvertStored_placed h
  rw [hanalyze] at hanalyze'
  obtain ⟨rfl, rfl⟩ := Prod.mk.inj (Option.some.inj hanalyze')
  have hplace' := placePhis_of_stored hs' hsteps
  rw [hplace] at hplace'
  rw [Option.some.inj hplace']
  exact hs'

/-- A function that is converted within the buffers fits them. -/
theorem conversionFits_of_stored (hheap : HeapOk ir) (hdoms : CorrectDoms ir entry doms)
    (hform : SsaFunction ir entry) (hdf : ∀ x, Reachable (cfgEdge ir) entry x →
      ∀ y ∈ domfrontiersGet df x, Reachable (cfgEdge ir) entry y)
    (h : ∃ bound, ∀ fuel, bound ≤ fuel → ∃ ir', ssaConvertStored doms df fuel ir entry = some ir') :
    ConversionFits ir entry doms df := by
  obtain ⟨bound, h⟩ := h
  obtain ⟨ir', hstored⟩ := h (max bound 126) (le_max_left _ _)
  have hrun := ssaConvert_of_stored hstored (le_max_right _ _) le_rfl
  exact (ssaConvertStored_iff hheap hdoms hform hdf hrun).mp hstored

/-- **Runs within the buffers.**  A conversion that ends with the guarantee `P` does so within its
buffers if and only if the function fits them. -/
theorem storedRuns_iff (hheap : HeapOk ir) (hdoms : CorrectDoms ir entry doms)
    (hform : SsaFunction ir entry) (hdf : ∀ x, Reachable (cfgEdge ir) entry x →
      ∀ y ∈ domfrontiersGet df x, Reachable (cfgEdge ir) entry y) {P : Ir → Prop}
    (hruns : ∃ bound, ∀ fuel, bound ≤ fuel → ∃ ir',
      ssaConvert doms df fuel ir entry = some ir' ∧ P ir') :
    (∃ bound, ∀ fuel, bound ≤ fuel → ∃ ir',
      ssaConvertStored doms df fuel ir entry = some ir' ∧ P ir') ↔
        ConversionFits ir entry doms df := by
  constructor
  · rintro ⟨bound, h⟩
    refine conversionFits_of_stored hheap hdoms hform hdf ⟨bound, fun fuel hfuel => ?_⟩
    obtain ⟨ir', hstored, -⟩ := h fuel hfuel
    exact ⟨ir', hstored⟩
  · intro hfits
    obtain ⟨bound, h⟩ := hruns
    refine ⟨bound, fun fuel hfuel => ?_⟩
    obtain ⟨ir', hrun, hP⟩ := h fuel hfuel
    exact ⟨ir', (ssaConvertStored_iff hheap hdoms hform hdf hrun).mpr hfits, hP⟩

end Runs

/-! ## A join of many edges -/

/-- `v = 0; if (v == 0) goto join;` in each of 16 blocks, `v = 0;` in another one, and the join of
these 17 blocks, which loads `v`. -/
def manyJumps : Ir :=
  irOfLists
    ((List.range 16).flatMap (fun b => [⟨.assignVar 0, .void, [some (.const 0)], b⟩,
        ⟨.jumpCond, .void, [some (.block (b + 1)), some (.block 17), some (.const 0)], b⟩]) ++
      [⟨.assignVar 0, .void, [some (.const 0)], 16⟩, ⟨.jump, .void, [some (.block 17)], 16⟩,
        ⟨.loadVar 0, .int64, [], 17⟩, ⟨.ret, .void, [], 17⟩])
    ((List.range 18).map fun b => [2 * b, 2 * b + 1]) [0]

/-- Its dominator tree. -/
def manyDoms : Dominators where
  domNodes := [⟨0, []⟩, ⟨1, []⟩] ++ (List.range' 2 15).map (fun i => ⟨i, [i - 1]⟩) ++
    [⟨17, [0, 16]⟩]
  doms := 17 :: List.range' 2 16 ++ [17]
  nodeToNum b := if b < 18 then some (17 - b) else none
  postorder := (List.range 18).map (17 - ·)
  elementCount := 18

/-- Its dominance frontiers. -/
def manyFrontiers : DomFrontiers := ⟨fun b => if 0 < b ∧ b < 17 then some [17] else none⟩

/-- The dominators of its blocks. -/
def manyChain (b : ℕ) : List ℕ := if b = 17 then [0, 17] else List.range (b + 1)

/-- What can be checked block by block. -/
theorem checked_manyJumps : Chains manyJumps 0 18 manyChain ∧
    ChainsDoms 0 18 manyChain manyDoms ∧ ChainsFrontiers manyJumps 18 manyChain manyFrontiers ∧
    ChainsForm manyJumps 18 manyChain ∧
    (∀ b < 18, (∀ i ∈ manyJumps.blocks b, (manyJumps.insts i).type ≠ .phi ∧
      ChainsLoad manyJumps manyChain b i ∧ ∀ a ∈ (manyJumps.insts i).type.rId, a = 0) ∧
      (loadAssigns manyJumps (manyJumps.blocks b)).length ≤ 250 ∧
      (17 ∈ blockSuccessors manyJumps b ↔ b < 17)) ∧
    ∀ b < 17, ∃ i ∈ manyJumps.blocks b, (manyJumps.insts i).type = .assignVar 0 := by
  decide

theorem heapOk_manyJumps : HeapOk manyJumps := heapOk_irOfLists (by decide)

theorem chains_manyJumps : Chains manyJumps 0 18 manyChain := checked_manyJumps.1

theorem correctDoms_manyJumps : CorrectDoms manyJumps 0 manyDoms :=
  chains_manyJumps.correctDoms checked_manyJumps.2.1

theorem correctFrontiers_manyJumps : CorrectFrontiers manyJumps 0 manyFrontiers :=
  chains_manyJumps.correctFrontiers checked_manyJumps.2.2.1

theorem ssaFunction_manyJumps : SsaFunction manyJumps 0 :=
  chains_manyJumps.ssaFunction checked_manyJumps.2.2.2.1

theorem block_manyJumps {b : ℕ} (hb : b < 18) :
    (∀ i ∈ manyJumps.blocks b, (manyJumps.insts i).type ≠ .phi ∧
      ChainsLoad manyJumps manyChain b i ∧ ∀ a ∈ (manyJumps.insts i).type.rId, a = 0) ∧
      (loadAssigns manyJumps (manyJumps.blocks b)).length ≤ 250 ∧
      (17 ∈ blockSuccessors manyJumps b ↔ b < 17) := checked_manyJumps.2.2.2.2.1 b hb

theorem phiFree_manyJumps : PhiFree manyJumps 0 :=
  chains_manyJumps.phiFree fun _ hb i hi => ((block_manyJumps hb).1 i hi).1

theorem loadsDominated_manyJumps : LoadsDominated manyJumps 0 :=
  chains_manyJumps.loadsDominated heapOk_manyJumps fun _ hb i hi =>
    ((block_manyJumps hb).1 i hi).2.1

/-- The blocks before the join assign the variable. -/
theorem assigns_manyJumps {b : ℕ} (hb : b < 17) :
    Reachable (cfgEdge manyJumps) 0 b ∧ 17 ∈ blockSuccessors manyJumps b ∧
      ∃ i ∈ manyJumps.blocks b, (manyJumps.insts i).type = .assignVar 0 :=
  ⟨chains_manyJumps.reachable_iff.mpr (by omega), (block_manyJumps (by omega)).2.2.mpr hb,
    checked_manyJumps.2.2.2.2.2 b hb⟩

/-- The join has 17 predecessors. -/
theorem ncard_manyJumps {P : ℕ → Prop} (hP : ∀ b < 17, P b) :
    {b | Reachable (cfgEdge manyJumps) 0 b ∧ 17 ∈ blockSuccessors manyJumps b ∧ P b}.ncard =
      17 := by
  rw [@ncard_eq_length _ (List.range 17) List.nodup_range _ fun b => ?_, List.length_range]
  rw [List.mem_range]
  constructor
  · rintro ⟨hb, hjoin, -⟩
    exact (block_manyJumps (chains_manyJumps.reachable_iff.mp hb)).2.2.mp hjoin
  · intro hb
    obtain ⟨hreach, hjoin, -⟩ := assigns_manyJumps hb
    exact ⟨hreach, hjoin, hP b hb⟩

/-- The phi of the join has no room for its 17 pairs. -/
theorem not_stored_manyJumps : ¬ ∃ bound, ∀ fuel, bound ≤ fuel →
    ∃ ir', ssaConvertStored manyDoms manyFrontiers fuel manyJumps 0 = some ir' := by
  intro h
  have hfits := conversionFits_of_stored heapOk_manyJumps correctDoms_manyJumps
    ssaFunction_manyJumps correctFrontiers_manyJumps.reachable h
  have hphi : GetsPhi manyJumps 0 manyDoms manyFrontiers 0 17 := by
    obtain ⟨hreach, -, hassign⟩ := assigns_manyJumps (show 1 < 17 by decide)
    exact .start ⟨hreach, hassign⟩ (show 17 ∈ domfrontiersGet manyFrontiers 1 by decide)
  have hle := hfits.pairs 0 17 hphi
  rw [ncard_manyJumps fun b hb => ?_] at hle
  · omega
  · obtain ⟨hreach, -, hassign⟩ := assigns_manyJumps hb
    exact ⟨b, .refl _, .inl ⟨hreach, hassign⟩⟩

/-! ## Meaning -/

/-- **`ssa_convert` preserves meaning within its buffers.**  It ends and keeps the operands along
every path only if the function fits the buffers; and if it does, and the first variable has the
phis it needs, then so it is. -/
theorem ssaConvertStored_preserves (ir : Ir) (entry : ℕ) (doms : Dominators) (df : DomFrontiers)
    (hheap : HeapOk ir) (hdoms : CorrectDoms ir entry doms) (hform : SsaFunction ir entry)
    (hfree : PhiFree ir entry) (hdf : CorrectFrontiers ir entry df)
    (hassigned : LoadsAssigned ir entry) :
    ((∃ bound, ∀ fuel, bound ≤ fuel → ∃ ir', ssaConvertStored doms df fuel ir entry = some ir' ∧
      ∀ (V : Type) (sem : ValueSemantics V), SameMeaning sem ir ir' entry) →
        ConversionFits ir entry doms df) ∧
    (FirstPhisSuffice ir entry doms → ConversionFits ir entry doms df →
      ∃ bound, ∀ fuel, bound ≤ fuel → ∃ ir', ssaConvertStored doms df fuel ir entry = some ir' ∧
        ∀ (V : Type) (sem : ValueSemantics V), SameMeaning sem ir ir' entry) := by
  constructor
  · rintro ⟨bound, h⟩
    refine conversionFits_of_stored hheap hdoms hform hdf.reachable ⟨bound, fun fuel hfuel => ?_⟩
    obtain ⟨ir', hstored, -⟩ := h fuel hfuel
    exact ⟨ir', hstored⟩
  · intro hfirst hfits
    exact (storedRuns_iff hheap hdoms hform hdf.reachable (ssaConvert_preserves ir entry doms df
      hheap hdoms hform hfree hdf hassigned hfirst)).mpr hfits

/-- The theorem at this function. -/
theorem ssaConvertStored_preserves_twoVariables : ∃ bound, ∀ fuel, bound ≤ fuel →
    ∃ ir', ssaConvertStored nestedDoms nestedFrontiers fuel twoVariables 0 = some ir' ∧
      ∀ (V : Type) (sem : ValueSemantics V), SameMeaning sem twoVariables ir' 0 := by
  have hdoms : CorrectDoms twoVariables 0 nestedDoms :=
    chains_twoVariables.correctDoms (by decide)
  exact (ssaConvertStored_preserves twoVariables 0 nestedDoms nestedFrontiers heapOk_twoVariables
    hdoms (chains_twoVariables.ssaFunction (by decide)) (chains_twoVariables.phiFree (by decide))
    correctFrontiers_twoVariables
    (chains_twoVariables.loadsDominated heapOk_twoVariables (by decide)).assigned).2
    firstPhisSuffice_twoVariables
    (.of_few hdoms correctFrontiers_twoVariables.reachable (by decide)
      (fun b => (hdoms.predecessors_le b).trans (by decide)) (by decide))

/-! ## Dominance -/

theorem conversionFits_nestedJoins : ConversionFits nestedJoins 0 nestedDoms nestedFrontiers :=
  .of_few correctDoms_nestedJoins correctFrontiers_nestedJoins.reachable (by decide)
    (fun b => (correctDoms_nestedJoins.predecessors_le b).trans (by decide)) (by decide)

/-- **Dominance after `ssa_convert`.**  It ends, the reachable blocks stay, and operands are defined
before they are used, if and only if the function fits the buffers. -/
theorem ssaConvertStored_dominance_iff (ir : Ir) (entry : ℕ) (doms : Dominators)
    (df : DomFrontiers) (hheap : HeapOk ir) (hdoms : CorrectDoms ir entry doms)
    (hform : SsaFunction ir entry) (hfree : PhiFree ir entry) (hload : LoadsDominated ir entry)
    (hdf : ∀ x, Reachable (cfgEdge ir) entry x → ∀ y ∈ domfrontiersGet df x,
      Reachable (cfgEdge ir) entry y) :
    (∃ bound, ∀ fuel, bound ≤ fuel → ∃ ir', ssaConvertStored doms df fuel ir entry = some ir' ∧
      (∀ b, Reachable (cfgEdge ir') entry b ↔ Reachable (cfgEdge ir) entry b) ∧
      DefinedBeforeUse ir' entry) ↔ ConversionFits ir entry doms df :=
  storedRuns_iff hheap hdoms hform hdf
    (ssaConvert_dominance ir entry doms df hheap hdoms hform hfree hload hdf)

/-- The theorem at the function with two joins. -/
theorem ssaConvertStored_dominance_nestedJoins : ∃ bound, ∀ fuel, bound ≤ fuel →
    ∃ ir', ssaConvertStored nestedDoms nestedFrontiers fuel nestedJoins 0 = some ir' ∧
      (∀ b, Reachable (cfgEdge ir') 0 b ↔ Reachable (cfgEdge nestedJoins) 0 b) ∧
      DefinedBeforeUse ir' 0 :=
  (ssaConvertStored_dominance_iff nestedJoins 0 nestedDoms nestedFrontiers heapOk_nestedJoins
    correctDoms_nestedJoins ssaFunction_nestedJoins phiFree_nestedJoins loadsDominated_nestedJoins
    correctFrontiers_nestedJoins.reachable).mpr
    conversionFits_nestedJoins

/-- The join of many edges is not converted within the buffers. -/
theorem ssaConvert_not_dominance : HeapOk manyJumps ∧ CorrectDoms manyJumps 0 manyDoms ∧
    SsaFunction manyJumps 0 ∧ PhiFree manyJumps 0 ∧ LoadsDominated manyJumps 0 ∧
    CorrectFrontiers manyJumps 0 manyFrontiers ∧
    ¬ ∃ bound, ∀ fuel, bound ≤ fuel →
      ∃ ir', ssaConvertStored manyDoms manyFrontiers fuel manyJumps 0 = some ir' ∧
        (∀ b, Reachable (cfgEdge ir') 0 b ↔ Reachable (cfgEdge manyJumps) 0 b) ∧
        DefinedBeforeUse ir' 0 := by
  refine ⟨heapOk_manyJumps, correctDoms_manyJumps, ssaFunction_manyJumps,
    phiFree_manyJumps, loadsDominated_manyJumps, correctFrontiers_manyJumps, ?_⟩
  rintro ⟨bound, h⟩
  refine not_stored_manyJumps ⟨bound, fun fuel hfuel => ?_⟩
  obtain ⟨ir', hstored, -⟩ := h fuel hfuel
  exact ⟨ir', hstored⟩

/-! ## The rest of the function -/

/-- **`ssa_convert` changes nothing else.**  It ends, and each reachable block has phis, at
most one for a variable, and then its instructions other than loads and assigns, if and only if
the function fits the buffers. -/
theorem ssaConvertStored_frame_iff (ir : Ir) (entry : ℕ) (doms : Dominators) (df : DomFrontiers)
    (hheap : HeapOk ir) (hdoms : CorrectDoms ir entry doms) (hform : SsaFunction ir entry)
    (hfree : PhiFree ir entry) (hload : LoadsDominated ir entry)
    (hdf : ∀ x, Reachable (cfgEdge ir) entry x → ∀ y ∈ domfrontiersGet df x,
      Reachable (cfgEdge ir) entry y) :
    (∃ bound, ∀ fuel, bound ≤ fuel → ∃ blockInfo vm s ir',
      analyzeBlocks ir doms = some (blockInfo, vm) ∧
      placePhisStored doms df ir blockInfo vm = some s ∧
      ssaConvertStored doms df fuel ir entry = some ir' ∧
      ∀ b, Reachable (cfgEdge ir) entry b → ∃ n : ℕ, doms.postorder[n]? = some b ∧
        BlockConverted ir ir' (s.blockInfo n).phiList b) ↔ ConversionFits ir entry doms df := by
  constructor
  · rintro ⟨bound, h⟩
    refine conversionFits_of_stored hheap hdoms hform hdf ⟨bound, fun fuel hfuel => ?_⟩
    obtain ⟨-, -, -, ir', -, -, hstored, -⟩ := h fuel hfuel
    exact ⟨ir', hstored⟩
  · intro hfits
    obtain ⟨bound, h⟩ := ssaConvert_frame ir entry doms df hheap hdoms hform hfree hload hdf
    refine ⟨max bound 126, fun fuel hfuel => ?_⟩
    obtain ⟨blockInfo, vm, s, ir', hanalyze, hplace, hrun, hframe⟩ :=
      h fuel ((le_max_left _ _).trans hfuel)
    have hstored := (ssaConvertStored_iff hheap hdoms hform hdf hrun).mpr hfits
    exact ⟨blockInfo, vm, s, ir', hanalyze,
      placed_of_stored hstored ((le_max_right _ _).trans hfuel) hanalyze hplace, hstored, hframe⟩

/-- The theorem at the function with two joins. -/
theorem ssaConvertStored_frame_nestedJoins : ∃ bound, ∀ fuel, bound ≤ fuel →
    ∃ blockInfo vm s ir', analyzeBlocks nestedJoins nestedDoms = some (blockInfo, vm) ∧
    placePhisStored nestedDoms nestedFrontiers nestedJoins blockInfo vm = some s ∧
    ssaConvertStored nestedDoms nestedFrontiers fuel nestedJoins 0 = some ir' ∧
    ∀ b, Reachable (cfgEdge nestedJoins) 0 b → ∃ n : ℕ, nestedDoms.postorder[n]? = some b ∧
      BlockConverted nestedJoins ir' (s.blockInfo n).phiList b :=
  (ssaConvertStored_frame_iff nestedJoins 0 nestedDoms nestedFrontiers heapOk_nestedJoins
    correctDoms_nestedJoins ssaFunction_nestedJoins phiFree_nestedJoins loadsDominated_nestedJoins
    correctFrontiers_nestedJoins.reachable).mpr
    conversionFits_nestedJoins

/-- The join of many edges is not converted within the buffers. -/
theorem ssaConvert_not_frame : HeapOk manyJumps ∧ CorrectDoms manyJumps 0 manyDoms ∧
    SsaFunction manyJumps 0 ∧ PhiFree manyJumps 0 ∧ LoadsDominated manyJumps 0 ∧
    CorrectFrontiers manyJumps 0 manyFrontiers ∧
    ¬ ∃ bound, ∀ fuel, bound ≤ fuel → ∃ blockInfo vm s ir',
      analyzeBlocks manyJumps manyDoms = some (blockInfo, vm) ∧
      placePhisStored manyDoms manyFrontiers manyJumps blockInfo vm = some s ∧
      ssaConvertStored manyDoms manyFrontiers fuel manyJumps 0 = some ir' ∧
      ∀ b, Reachable (cfgEdge manyJumps) 0 b → ∃ n : ℕ, manyDoms.postorder[n]? = some b ∧
        BlockConverted manyJumps ir' (s.blockInfo n).phiList b := by
  refine ⟨heapOk_manyJumps, correctDoms_manyJumps, ssaFunction_manyJumps,
    phiFree_manyJumps, loadsDominated_manyJumps, correctFrontiers_manyJumps, ?_⟩
  rintro ⟨bound, h⟩
  refine not_stored_manyJumps ⟨bound, fun fuel hfuel => ?_⟩
  obtain ⟨-, -, -, ir', -, -, hstored, -⟩ := h fuel hfuel
  exact ⟨ir', hstored⟩

/-! ## Phi placement -/

/-- **Phi placement.**  Step 2 of `ssa_convert` ends within the buffers with the phis of a variable
on the iterated dominance frontier of the blocks that assign it, if and only if the function fits
the buffers of the steps 1 and 2, and the variable is not the first one, or the frontiers of
these blocks are closed. -/
theorem placePhisStored_iterated_iff (ir : Ir) (entry : ℕ) (doms : Dominators) (df : DomFrontiers)
    (hheap : HeapOk ir) (hdoms : CorrectDoms ir entry doms) (hform : LoadAssignForm ir entry)
    (hdf : CorrectFrontiers ir entry df) (a : ℕ) (ha : IsVariable ir entry a) :
    (∃ blockInfo vm s, analyzeBlocks ir doms = some (blockInfo, vm) ∧
      AnalysisStored doms blockInfo vm ∧ placePhisStored doms df ir blockInfo vm = some s ∧
      ∀ b, HoldsPhi doms s b a ↔
        IteratedFrontier (cfgEdge ir) entry (Assigning ir entry a) b) ↔
      PlacingFits ir entry doms df ∧
        (firstVariable ir doms ≠ some a ∨ FrontierClosed ir entry a) := by
  obtain ⟨blockInfo, vm, hanalyze, han⟩ := analyzeBlocks_spec hheap hdoms.nodup hdoms.count
  obtain ⟨phis, s, queues, hqueues, hplaced, hplace⟩ :=
    placePhis_queues hheap hdoms hform han hdf.reachable
  have hstored := placingStored_iff hheap hdoms hform han hqueues hplaced hplace
  -- the phis of step 2
  have hphis : (∀ b, HoldsPhi doms s b a ↔
      IteratedFrontier (cfgEdge ir) entry (Assigning ir entry a) b) ↔
        (firstVariable ir doms ≠ some a ∨ FrontierClosed ir entry a) := by
    obtain ⟨bound, h⟩ := placePhis_iterated_iff ir entry doms df hheap hdoms hform hdf
    obtain ⟨blockInfo', vm', s', hanalyze', hplace', hall⟩ := h bound le_rfl
    rw [hanalyze] at hanalyze'
    obtain ⟨rfl, rfl⟩ := Prod.mk.inj (Option.some.inj hanalyze')
    rw [hplace] at hplace'
    split at hplace'
    · rw [Option.some.inj hplace']
      exact hall a ha
    · cases hplace'
  rw [← hstored, ← hphis]
  constructor
  · rintro ⟨blockInfo', vm', s', hanalyze', hlists, hs', hall⟩
    rw [hanalyze] at hanalyze'
    obtain ⟨rfl, rfl⟩ := Prod.mk.inj (Option.some.inj hanalyze')
    obtain rfl := placePhisStored_eq hplace hs'
    exact ⟨⟨hlists, hs'⟩, hall⟩
  · rintro ⟨⟨hlists, hs⟩, hall⟩
    exact ⟨blockInfo, vm, s, hanalyze, hlists, hs, hall⟩

/-- The theorem at the second variable of a function. -/
theorem placePhisStored_iterated_twoVariables : ∃ blockInfo vm s,
    analyzeBlocks twoVariables nestedDoms = some (blockInfo, vm) ∧
    AnalysisStored nestedDoms blockInfo vm ∧
    placePhisStored nestedDoms nestedFrontiers twoVariables blockInfo vm = some s ∧
    ∀ b, HoldsPhi nestedDoms s b 1 ↔
      IteratedFrontier (cfgEdge twoVariables) 0 (Assigning twoVariables 0 1) b := by
  have hdoms : CorrectDoms twoVariables 0 nestedDoms :=
    chains_twoVariables.correctDoms (by decide)
  refine (placePhisStored_iterated_iff twoVariables 0 nestedDoms nestedFrontiers
    heapOk_twoVariables hdoms (chains_twoVariables.ssaFunction (by decide)).toLoadAssignForm
    correctFrontiers_twoVariables 1 ⟨0, .root, 1, by decide, rfl⟩).mpr ⟨?_, .inl (by decide)⟩
  exact (ConversionFits.of_few hdoms correctFrontiers_twoVariables.reachable (by decide)
    (fun b => (hdoms.predecessors_le b).trans (by decide)) (by decide)).toPlacingFits

/-! ## Renaming -/

/-- **Renaming is right whenever the phis suffice.**  With a phi for each register at least on
the iterated dominance frontier of the blocks that assign it, `ssa_rename` for the entry ends
within its buffers, and along every path each load is replaced by the value that was assigned
last, which is defined, if and only if the function with its phis fits the buffers. -/
theorem ssaRenameStored_reaching_iff (ir mid : Ir) (entry : ℕ) (phis : ℕ → List PhiInfo)
    (doms : Dominators) (blockInfo : ℕ → BlockInfo) (vm : VariableMap) (fuel : ℕ)
    (hheap : HeapOk ir) (hdoms : CorrectDoms ir entry doms) (hform : SsaFunction ir entry)
    (hfree : PhiFree ir entry) (hassigned : LoadsAssigned ir entry) (hfilled : Filled ir phis mid)
    (hreg : ∀ b, ∀ p ∈ phis b, IntReg p.rId)
    (hphis : ∀ a b, IteratedFrontier (cfgEdge ir) entry (Assigning ir entry a) b →
      HasPhi phis b a)
    (hstart : RenameStart mid entry phis doms blockInfo vm) (hfuel : doms.elementCount < fuel) :
    (∃ s value, RenameListsStored doms blockInfo ∧
      RenameStored doms fuel ⟨mid, blockInfo, vm⟩ entry s ∧ LoadsReplaced ir s.ir entry value ∧
      (∀ (V : Type) (sem : ValueSemantics V), LoadsReach sem ir s.ir entry value) ∧
      (BinaryOperands ir entry → ∀ (V : Type) (sem : ValueSemantics V) w b,
        Walk (cfgEdge ir) entry (w ++ [b]) b → ∀ pre i post a, ir.blocks b = pre ++ i :: post →
          (ir.insts i).type = .loadVar a → (stateAt sem ir w b pre).regs a ≠ none)) ↔
      RenamingFits ir entry phis := by
  obtain ⟨s, value, hrun, hreplaced, hreach, hdefined⟩ := ssaRename_reaching ir mid entry phis
    doms blockInfo vm fuel hheap hdoms hform hfree hassigned hfilled hreg hphis hstart hfuel
  constructor
  · rintro ⟨s', -, hlists, hstored, -⟩
    exact (renameStored_iff hfilled hheap hdoms hform hreg hstart
      (ssaRename_of_stored hstored.1)).mp ⟨hlists, hstored⟩
  · intro hfits
    obtain ⟨hlists, hstored⟩ :=
      (renameStored_iff hfilled hheap hdoms hform hreg hstart hrun).mpr hfits
    exact ⟨s, value, hlists, hstored, hreplaced, hreach, hdefined⟩

/-- The theorem at the function with two joins and its phis. -/
theorem ssaRenameStored_reaching_filledJoins :
    ∃ s value, RenameListsStored nestedDoms joinInfo ∧
      RenameStored nestedDoms 6 ⟨filledJoins, joinInfo, joinStacks⟩ 0 s ∧
      LoadsReplaced nestedJoins s.ir 0 value ∧
      (∀ (V : Type) (sem : ValueSemantics V), LoadsReach sem nestedJoins s.ir 0 value) ∧
      (BinaryOperands nestedJoins 0 → ∀ (V : Type) (sem : ValueSemantics V) w b,
        Walk (cfgEdge nestedJoins) 0 (w ++ [b]) b → ∀ pre i post a,
          nestedJoins.blocks b = pre ++ i :: post → (nestedJoins.insts i).type = .loadVar a →
            (stateAt sem nestedJoins w b pre).regs a ≠ none) :=
  (ssaRenameStored_reaching_iff nestedJoins filledJoins 0 joinPhis nestedDoms joinInfo joinStacks 6
    heapOk_nestedJoins correctDoms_nestedJoins ssaFunction_nestedJoins phiFree_nestedJoins
    loadsDominated_nestedJoins.assigned filled_filledJoins intReg_joinPhis hasPhi_joinPhis
    renameStart_filledJoins (by decide)).mpr
    (.of_few correctDoms_nestedJoins (by decide) (by decide))

/-- The phi of the join. -/
def manyPhis : ℕ → List PhiInfo := Function.update (fun _ => []) 17 [⟨0, 36⟩]

@[inherit_doc manyPhis]
def filledJumps : Ir := blockInsertTop (instNewPhi manyJumps .int64).1 17 36

theorem filled_filledJumps : Filled manyJumps manyPhis filledJumps :=
  (Filled.start heapOk_manyJumps).insert heapOk_manyJumps

theorem rId_manyPhis {b : ℕ} {p : PhiInfo} (hp : p ∈ manyPhis b) : p.rId = 0 := by
  unfold manyPhis at hp
  rw [Function.update_apply] at hp
  split at hp
  · rw [List.mem_singleton.mp hp]
  · cases hp

/-- What `ssa_rename` starts with. -/
def manyInfo (n : ℕ) : BlockInfo :=
  (manyDoms.postorder[n]?).elim {} fun b =>
    { phiList := manyPhis b, loadAssigns := loadAssigns filledJumps (filledJumps.blocks b) }

theorem renameStart_filledJumps :
    RenameStart filledJumps 0 manyPhis manyDoms manyInfo joinStacks where
  info n b hn := by
    unfold manyInfo
    rw [hn]
    exact ⟨rfl, rfl, rfl⟩
  has b hb := by
    rw [filled_filledJumps.cfgEdge_eq heapOk_manyJumps, chains_manyJumps.reachable_iff] at hb
    have hhas : joinStacks.Has 0 := Option.some_ne_none _
    refine ⟨fun i hi a ha => ?_, fun p hp => ?_⟩
    · have hib := filled_filledJumps.not_phi hi (by rw [ha]; exact InstType.noConfusion)
      rw [filled_filledJumps.insts_of_mem heapOk_manyJumps hib] at ha
      rw [((block_manyJumps hb).1 i hib).2.2 a (by rw [ha]; rfl)]
      exact hhas
    · rw [rId_manyPhis hp]
      exact hhas
  tops := renameStart_filledJoins.tops

/-- Only the join is on a frontier. -/
theorem hasPhi_manyPhis (a b : ℕ)
    (h : IteratedFrontier (cfgEdge manyJumps) 0 (Assigning manyJumps 0 a) b) :
    HasPhi manyPhis b a := by
  have ha : a = 0 := by
    obtain ⟨x, hx, i, hi, hia⟩ := h.exists_start
    exact ((block_manyJumps (chains_manyJumps.reachable_iff.mp hx)).1 i hi).2.2 a
      (by rw [hia]; rfl)
  have hb : b = 17 := by
    obtain ⟨x, hx, hxb⟩ := h.exists_frontier fun _ hx => hx.1
    have hall : ∀ x < 18, ∀ y ∈ domfrontiersGet manyFrontiers x, y = 17 := by decide
    exact hall x (chains_manyJumps.reachable_iff.mp hx) b
      ((correctFrontiers_manyJumps x hx b).mpr hxb)
  rw [ha, hb]
  exact ⟨_, List.mem_singleton.mpr rfl, rfl⟩

theorem renameListsStored_filledJumps : RenameListsStored manyDoms manyInfo := by
  have hphis : ∀ b < 18, (manyPhis b).length ≤ 250 := by decide
  refine (renameStart_filledJumps.listsStored_iff filled_filledJumps heapOk_manyJumps
    correctDoms_manyJumps).mpr fun b hb => ?_
  have hlt := chains_manyJumps.reachable_iff.mp hb
  exact ⟨hphis b hlt, (block_manyJumps hlt).2.1⟩

/-- Renaming gives the phi 17 pairs. -/
theorem not_renameStored_filledJumps (fuel : ℕ) (s : RenameState) :
    ¬ RenameStored manyDoms fuel ⟨filledJumps, manyInfo, joinStacks⟩ 0 s := by
  intro hstored
  have hfits := (renameStored_iff filled_filledJumps heapOk_manyJumps correctDoms_manyJumps
    ssaFunction_manyJumps (fun b p hp => by rw [rId_manyPhis hp]; decide) renameStart_filledJumps
    (ssaRename_of_stored hstored.1)).mp ⟨renameListsStored_filledJumps, hstored⟩
  have hle := hfits.pairs 17 (chains_manyJumps.reachable_iff.mpr (by decide)) ⟨0, 36⟩
    (List.mem_singleton.mpr rfl)
  unfold pairBlocks at hle
  rw [ncard_manyJumps fun b hb => ⟨b, .refl _, .inl (assigns_manyJumps hb).2.2⟩] at hle
  omega

/-- **A phi that overflows.**  The join of many edges has the phi that it needs and its lists are
stored, and `ssa_rename` gives the phi more pairs than its buffer holds. -/
theorem ssaRename_not_reaching : HeapOk manyJumps ∧ CorrectDoms manyJumps 0 manyDoms ∧
    SsaFunction manyJumps 0 ∧ PhiFree manyJumps 0 ∧ LoadsAssigned manyJumps 0 ∧
    Filled manyJumps manyPhis filledJumps ∧
    (∀ a b, IteratedFrontier (cfgEdge manyJumps) 0 (Assigning manyJumps 0 a) b →
      HasPhi manyPhis b a) ∧
    RenameStart filledJumps 0 manyPhis manyDoms manyInfo joinStacks ∧
    RenameListsStored manyDoms manyInfo ∧
    ¬ ∃ fuel s value, RenameStored manyDoms fuel ⟨filledJumps, manyInfo, joinStacks⟩ 0 s ∧
      LoadsReplaced manyJumps s.ir 0 value ∧
      (∀ (V : Type) (sem : ValueSemantics V), LoadsReach sem manyJumps s.ir 0 value) := by
  refine ⟨heapOk_manyJumps, correctDoms_manyJumps, ssaFunction_manyJumps, phiFree_manyJumps,
    loadsDominated_manyJumps.assigned, filled_filledJumps, hasPhi_manyPhis,
    renameStart_filledJumps, renameListsStored_filledJumps, ?_⟩
  rintro ⟨fuel, s, -, hstored, -⟩
  exact not_renameStored_filledJumps fuel s hstored

/-! ## The stacks -/

/-- **Renaming leaves the stacks as it found them.**  A call that returns within the buffers, for
any block in any state, gives every stack back; when such a call reaches its pops they succeed and
give the stacks of its start; and after the call for the entry in `ssa_convert` all are empty.  A
call for the entry that returns stays within the buffers if and only if the function with its
phis fits them. -/
theorem ssaRenameStored_stacks (doms : Dominators) (fuel : ℕ) :
    (∀ s current s', RenameStored doms fuel s current s' →
      s'.variableMap = s.variableMap) ∧
    (∀ s current number s', renameDownStored doms fuel s current number = some s' →
      PairsStored doms s' → renamePops (s.blockInfo number) s' = some s.variableMap) ∧
    (∀ ir df entry blockInfo vm placed s',
      analyzeBlocks ir doms = some (blockInfo, vm) → AnalysisStored doms blockInfo vm →
      placePhisStored doms df ir blockInfo vm = some placed →
      RenameStored doms fuel ⟨placed.ir, placed.blockInfo, vm⟩ entry s' →
        s'.variableMap.StacksEmpty) ∧
    ∀ ir mid entry phis blockInfo vm s, HeapOk ir → CorrectDoms ir entry doms →
      SsaFunction ir entry → Filled ir phis mid → (∀ b, ∀ p ∈ phis b, IntReg p.rId) →
      RenameStart mid entry phis doms blockInfo vm →
      ssaRename doms fuel ⟨mid, blockInfo, vm⟩ entry = some s →
        (RenameListsStored doms blockInfo ∧ RenameStored doms fuel ⟨mid, blockInfo, vm⟩ entry s ∧
          s.variableMap = vm ↔ RenamingFits ir entry phis) := by
  refine ⟨?_, ?_, ?_, ?_⟩
  · intro s current s' h
    exact (ssaRenameStored_restores h.1).variableMap
  · intro s current number s' h _
    exact (renamePops_eq (ssaRename_restores doms fuel) (renameDown_of_stored h)).1
  · intro ir df entry blockInfo vm placed s' hanalyze _ _ hrename
    rw [(ssaRenameStored_restores hrename.1).variableMap]
    exact analyzeBlocks_empty hanalyze
  · intro ir mid entry phis blockInfo vm s hheap hdoms hform hfilled hreg hstart hrun
    rw [← renameStored_iff hfilled hheap hdoms hform hreg hstart hrun]
    have hkept : s.variableMap = vm := (ssaRename_restores doms fuel _ entry s hrun).variableMap
    exact and_congr_right fun _ => and_iff_left hkept

/-- The theorem at the function with two joins and its phis. -/
theorem ssaRenameStored_stacks_filledJoins : ∃ s,
    RenameStored nestedDoms 6 ⟨filledJoins, joinInfo, joinStacks⟩ 0 s ∧
      s.variableMap = joinStacks ∧
    ∃ s', renameDownStored nestedDoms 5 ⟨filledJoins, joinInfo, joinStacks⟩ 0 4 = some s' ∧
      renamePops (joinInfo 4) s' = some joinStacks := by
  have hruns : (∃ s, ssaRenameStored nestedDoms 6 ⟨filledJoins, joinInfo, joinStacks⟩ 0 = some s ∧
      PairsStored nestedDoms s) ∧
      ∃ s', renameDownStored nestedDoms 5 ⟨filledJoins, joinInfo, joinStacks⟩ 0 4 = some s' ∧
        PairsStored nestedDoms s' := by decide
  obtain ⟨⟨s, hs⟩, s', hs', hpairs⟩ := hruns
  exact ⟨s, hs, (ssaRenameStored_stacks nestedDoms 6).1 _ _ _ hs, s', hs',
    (ssaRenameStored_stacks nestedDoms 5).2.1 _ _ _ _ hs' hpairs⟩

/-- **A call that leaves its buffers.**  In the join of many edges every load has a value, and no
call for the entry returns within the buffers. -/
theorem ssaRename_not_stacks :
    (∃ s, ssaRename manyDoms 19 ⟨filledJumps, manyInfo, joinStacks⟩ 0 = some s) ∧
    RenameListsStored manyDoms manyInfo ∧
    ¬ ∃ fuel s, RenameStored manyDoms fuel ⟨filledJumps, manyInfo, joinStacks⟩ 0 s ∧
      s.variableMap = joinStacks := by
  refine ⟨?_, renameListsStored_filledJumps, ?_⟩
  · obtain ⟨s, -, hrun, -⟩ := ssaRename_reaching manyJumps filledJumps 0 manyPhis manyDoms manyInfo
      joinStacks 19 heapOk_manyJumps correctDoms_manyJumps ssaFunction_manyJumps phiFree_manyJumps
      loadsDominated_manyJumps.assigned filled_filledJumps
      (fun b p hp => by rw [rId_manyPhis hp]; decide) hasPhi_manyPhis renameStart_filledJumps
      (by decide)
    exact ⟨s, hrun⟩
  · rintro ⟨fuel, s, hstored, -⟩
    exact not_renameStored_filledJumps fuel s hstored
