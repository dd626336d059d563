/-
# Phis and iterated dominance frontiers

The worklist of the first variable never grows: its stamps are those of the blocks that were
never looked at.  So its phis are on the frontiers of the blocks that assign it, and
`placePhis_iterated_iff` says when these are the iterated frontier.
-/
import MCompiler.SsaPlacement
import MCompiler.IrLists
import MCompiler.DominatorChains

open FlowGraph

/-- A register that a reachable block loads or assigns. -/
def IsVariable (ir : Ir) (entry a : ℕ) : Prop :=
  ∃ b, Reachable (cfgEdge ir) entry b ∧ ∃ i ∈ ir.blocks b, (ir.insts i).type.rId = some a

/-- The block `b` holds a phi for the register `a`. -/
def HoldsPhi (doms : Dominators) (s : PlaceState) (b a : ℕ) : Prop :=
  ∃ n : ℕ, doms.postorder[n]? = some b ∧ ∃ p ∈ (s.blockInfo n).phiList, p.rId = a ∧
    p.phiInst ∈ s.ir.blocks b ∧ (s.ir.insts p.phiInst).type = .phi

/-- The frontiers of the blocks that assign `a` hold the frontiers of their blocks. -/
def FrontierClosed (ir : Ir) (entry a : ℕ) : Prop :=
  ∀ x y z, Assigning ir entry a x → Frontier (cfgEdge ir) entry x y →
    Frontier (cfgEdge ir) entry y z → ∃ x', Assigning ir entry a x' ∧ Frontier (cfgEdge ir) entry x' z

section Frontier

variable {ir : Ir} {entry : ℕ} {doms : Dominators} {df : DomFrontiers}
  {blockInfo : ℕ → BlockInfo} {vm : VariableMap} {phis : ℕ → List PhiInfo} {k a b : ℕ}
  {s : PlaceState}

theorem reachable_of_frontier {x y : ℕ} (h : Frontier (cfgEdge ir) entry x y) :
    Reachable (cfgEdge ir) entry y := by
  obtain ⟨p, hE, hp, -⟩ := h
  exact hp.step hE

theorem CorrectFrontiers.reachable (h : CorrectFrontiers ir entry df) (x : ℕ)
    (hx : Reachable (cfgEdge ir) entry x) (y : ℕ) (hy : y ∈ domfrontiersGet df x) :
    Reachable (cfgEdge ir) entry y := reachable_of_frontier ((h x hx y).mp hy)

/-- With a growing worklist the phis are on the iterated frontier. -/
theorem CorrectFrontiers.placedAt_iff (h : CorrectFrontiers ir entry df) {S : ℕ → Prop}
    (hS : ∀ x, S x → Reachable (cfgEdge ir) entry x) {grow : Prop} (hgrow : grow) :
    PlacedAt df grow S b ↔ IteratedFrontier (cfgEdge ir) entry S b := by
  have hreach : ∀ {x}, IteratedFrontier (cfgEdge ir) entry S x →
      Reachable (cfgEdge ir) entry x := by
    intro x hx
    cases hx with
    | base _ hy => exact reachable_of_frontier hy
    | step _ hy => exact reachable_of_frontier hy
  constructor
  · intro hb
    induction hb with
    | start hx hy => exact .base hx ((h _ (hS _ hx) _).mp hy)
    | step _ _ hy ih => exact .step ih ((h _ (hreach ih) _).mp hy)
  · intro hb
    induction hb with
    | base hx hy => exact .start hx ((h _ (hS _ hx) _).mpr hy)
    | step hx hy ih => exact .step hgrow ih ((h _ (hreach hx) _).mpr hy)

/-- With a worklist that never grows they are on the frontier. -/
theorem CorrectFrontiers.placedAt_first (h : CorrectFrontiers ir entry df) {S : ℕ → Prop}
    (hS : ∀ x, S x → Reachable (cfgEdge ir) entry x) {grow : Prop} (hgrow : ¬ grow) :
    PlacedAt df grow S b ↔ ∃ x, S x ∧ Frontier (cfgEdge ir) entry x b := by
  constructor
  · intro hb
    cases hb with
    | start hx hy => exact ⟨_, hx, (h _ (hS _ hx) _).mp hy⟩
    | step hg => exact absurd hg hgrow
  · rintro ⟨x, hx, hy⟩
    exact .start hx ((h x (hS x hx) b).mpr hy)

/-- The frontiers of the assigning blocks are the iterated frontier if they are closed. -/
theorem frontier_iterated_iff : (∀ b, (∃ x, Assigning ir entry a x ∧ Frontier (cfgEdge ir) entry x b) ↔
    IteratedFrontier (cfgEdge ir) entry (Assigning ir entry a) b) ↔ FrontierClosed ir entry a := by
  constructor
  · intro h x y z hx hy hz
    exact (h z).mpr (.step (.base hx hy) hz)
  · intro h b
    constructor
    · rintro ⟨x, hx, hb⟩
      exact .base hx hb
    · intro hb
      induction hb with
      | base hx hy => exact ⟨_, hx, hy⟩
      | step _ hz ih =>
          obtain ⟨x, hx, hy⟩ := ih
          exact h x _ _ hx hy hz

theorem Placed.holdsPhi_iff (h : Placed ir entry doms df blockInfo vm k phis s)
    (hdoms : CorrectDoms ir entry doms) : HoldsPhi doms s b a ↔ HasPhi phis b a := by
  constructor
  · rintro ⟨n, hn, p, hp, hpa, -⟩
    rw [h.info n b hn] at hp
    exact ⟨p, hp, hpa⟩
  · rintro ⟨p, hp, hpa⟩
    obtain ⟨n, hn⟩ := List.mem_iff_getElem?.mp ((hdoms.mem b).mpr (h.inside b p hp))
    refine ⟨n, hn, p, ?_, hpa, h.filled.mem_blocks.mpr (.inl ⟨p, hp, rfl⟩),
      (h.filled.phi b p hp).2.2.1⟩
    rw [h.info n b hn]
    exact hp

/-- The variables are listed, and the first of them is the first register used. -/
theorem Analyzed.exists_index (h : Analyzed ir doms blockInfo vm) (hdoms : CorrectDoms ir entry doms)
    (hform : LoadAssignForm ir entry) (ha : IsVariable ir entry a) :
    ∃ (k : ℕ) (key : ℤ) (rInfo : RegInfo), vm.list[k]? = some key ∧ vm.regs key = some rInfo ∧
      rInfo.rId = a ∧ (k = 0 ↔ firstVariable ir doms = some a) := by
  obtain ⟨b, hb, i, hi, hia⟩ := ha
  have hareg := hform.reg b hb i hi a hia
  obtain ⟨rInfo, hr, -⟩ := h.regs.has b ((hdoms.mem b).mpr hb) i hi a hia
  have hrId : rInfo.rId = a :=
    (toInt_reg_inj (h.regs.intReg hdoms hform hr) hareg).mp (h.regs.key _ rInfo hr)
  have hmem : toInt (a : ℤ) ∈ vm.list := by
    rw [h.regs.mem_list, hr]
    exact Option.some_ne_none rInfo
  obtain ⟨k, hk⟩ := List.mem_iff_getElem?.mp hmem
  refine ⟨k, _, rInfo, hk, hr, hrId, ?_⟩
  have hfirst : vm.list[0]? = (firstVariable ir doms).map fun a : ℕ => toInt a := by
    rw [← h.first, List.head?_eq_getElem?]
  constructor
  · rintro rfl
    rw [hk] at hfirst
    obtain ⟨a', ha', heq⟩ := Option.map_eq_some_iff.mp hfirst.symm
    obtain ⟨j, hj, hja⟩ := List.exists_of_findSome?_eq_some ha'
    obtain ⟨c, hc, hjc⟩ := List.mem_flatMap.mp hj
    have hareg' := hform.reg c ((hdoms.mem c).mp hc) j hjc a' hja
    rw [ha', (toInt_reg_inj hareg' hareg).mp heq]
  · intro hf
    rw [hf, Option.map_some, ← hk] at hfirst
    exact ((List.getElem?_inj (List.getElem?_eq_some_iff.mp hk).1 h.regs.nodup).mp hfirst.symm)

theorem Assigning.isVariable (h : Assigning ir entry a b) : IsVariable ir entry a := by
  obtain ⟨hb, i, hi, hia⟩ := h
  exact ⟨b, hb, i, hi, by rw [hia]; rfl⟩

/-- **Where the phis are**, register by register. -/
theorem Placed.hasPhi_iff (h : Placed ir entry doms df blockInfo vm vm.list.length phis s)
    (hdoms : CorrectDoms ir entry doms) (hform : LoadAssignForm ir entry)
    (han : Analyzed ir doms blockInfo vm) : HasPhi phis b a ↔
      PlacedAt df (firstVariable ir doms ≠ some a) (Assigning ir entry a) b := by
  have hvariable : IsVariable ir entry a → (HasPhi phis b a ↔
      PlacedAt df (firstVariable ir doms ≠ some a) (Assigning ir entry a) b) := by
    intro ha
    obtain ⟨k, key, rInfo, hk, hr, hrId, hfirst⟩ := han.exists_index hdoms hform ha
    have hkb := h.placed k (List.getElem?_eq_some_iff.mp hk).1 key rInfo hk hr b
    rwa [hrId, ne_eq, hfirst] at hkb
  constructor
  · intro hphi
    refine (hvariable ?_).mp hphi
    -- a phi is for a register that is used
    obtain ⟨p, hp, rfl⟩ := hphi
    obtain ⟨-, -, -, rInfo, hr, hrId⟩ := h.reg b p hp
    obtain ⟨x, hx, i, hi, hia⟩ := han.regs.reg _ rInfo hr
    exact ⟨x, (hdoms.mem x).mp hx, i, hi, hrId ▸ hia⟩
  · intro hplaced
    obtain ⟨x, hx⟩ := hplaced.exists_start
    exact (hvariable hx.isVariable).mpr hplaced

/-- Where the phis are after step 2. -/
theorem placePhis_holds (hheap : HeapOk ir) (hdoms : CorrectDoms ir entry doms)
    (hform : LoadAssignForm ir entry) (hdf : CorrectFrontiers ir entry df) :
    ∃ bound, ∀ fuel, bound ≤ fuel → ∃ blockInfo vm s,
      analyzeBlocks ir doms = some (blockInfo, vm) ∧
      placePhis doms df fuel ir blockInfo vm = some s ∧
      ∀ a, IsVariable ir entry a → ∀ b, HoldsPhi doms s b a ↔
        PlacedAt df (firstVariable ir doms ≠ some a) (Assigning ir entry a) b := by
  obtain ⟨blockInfo, vm, hrun, han⟩ := analyzeBlocks_spec hheap hdoms.nodup hdoms.count
  refine ⟨doms.elementCount + 1, fun fuel hfuel => ?_⟩
  obtain ⟨phis, s, hplace, hplaced⟩ := placePhis_spec hheap hdoms hform han hdf.reachable
    (Nat.lt_of_succ_le hfuel)
  refine ⟨blockInfo, vm, s, hrun, hplace, fun a _ b => ?_⟩
  rw [hplaced.holdsPhi_iff hdoms, hplaced.hasPhi_iff hdoms hform han]

end Frontier

/-- **Phi placement.**  Step 2 of `ssa_convert` ends, and the phis of a variable are on the
iterated dominance frontier of the blocks that assign it if and only if it is not the
first variable, or the frontiers of these blocks are closed. -/
theorem placePhis_iterated_iff (ir : Ir) (entry : ℕ) (doms : Dominators) (df : DomFrontiers)
    (hheap : HeapOk ir) (hdoms : CorrectDoms ir entry doms) (hform : LoadAssignForm ir entry)
    (hdf : CorrectFrontiers ir entry df) :
    ∃ bound, ∀ fuel, bound ≤ fuel → ∃ blockInfo vm s,
      analyzeBlocks ir doms = some (blockInfo, vm) ∧
      placePhis doms df fuel ir blockInfo vm = some s ∧
      ∀ a, IsVariable ir entry a →
        ((∀ b, HoldsPhi doms s b a ↔
            IteratedFrontier (cfgEdge ir) entry (Assigning ir entry a) b) ↔
          (firstVariable ir doms ≠ some a ∨ FrontierClosed ir entry a)) := by
  obtain ⟨bound, h⟩ := placePhis_holds hheap hdoms hform hdf
  refine ⟨bound, fun fuel hfuel => ?_⟩
  obtain ⟨blockInfo, vm, s, hrun, hplace, hholds⟩ := h fuel hfuel
  refine ⟨blockInfo, vm, s, hrun, hplace, fun a ha => ?_⟩
  have hS : ∀ x, Assigning ir entry a x → Reachable (cfgEdge ir) entry x := fun x hx => hx.1
  simp only [hholds a ha]
  by_cases hfirst : firstVariable ir doms = some a
  · have hnot : ¬ firstVariable ir doms ≠ some a := not_not.mpr hfirst
    have hplaced : ∀ b, PlacedAt df (firstVariable ir doms ≠ some a) (Assigning ir entry a) b ↔
        ∃ x, Assigning ir entry a x ∧ Frontier (cfgEdge ir) entry x b := fun b =>
      hdf.placedAt_first hS hnot
    simp only [hplaced]
    rw [frontier_iterated_iff]
    exact ⟨.inr, fun h => h.resolve_left hnot⟩
  · exact iff_of_true (fun b => hdf.placedAt_iff hS hfirst) (.inl hfirst)

/-! ## Two joins in a row -/

/-- `int64 v = 0; if (1) { if (1) v = 1; } v + 0;` with its two joins `3` and `4`. -/
def nestedJoins : Ir :=
  irOfLists
    [⟨.assignVar 0, .void, [some (.const 0)], 0⟩,
      ⟨.jumpCond, .void, [some (.block 1), some (.block 4), some (.const 1)], 0⟩,
      ⟨.jumpCond, .void, [some (.block 2), some (.block 3), some (.const 1)], 1⟩,
      ⟨.assignVar 0, .void, [some (.const 1)], 2⟩,
      ⟨.jump, .void, [some (.block 3)], 2⟩,
      ⟨.jump, .void, [some (.block 4)], 3⟩,
      ⟨.loadVar 0, .int64, [], 4⟩,
      ⟨.binary .add, .int64, [some (.inst 6), some (.const 0)], 4⟩,
      ⟨.ret, .void, [], 4⟩]
    [[0, 1], [2], [3, 4], [5], [6, 7, 8]] [0, 1]

/-- Its dominator tree. -/
def nestedDoms : Dominators where
  domNodes := [⟨0, []⟩, ⟨1, []⟩, ⟨2, []⟩, ⟨3, [1, 2]⟩, ⟨4, [0, 3]⟩]
  doms := [4, 3, 3, 4, 4]
  nodeToNum b := if b < 5 then some (4 - b) else none
  postorder := [4, 3, 2, 1, 0]
  elementCount := 5

/-- Its dominance frontiers. -/
def nestedFrontiers : DomFrontiers where
  dfMap
    | 1 => some [4]
    | 2 => some [3]
    | 3 => some [4]
    | _ => none

/-- The dominators of its blocks. -/
def nestedChain : ℕ → List ℕ
  | 0 => [0]
  | 1 => [0, 1]
  | 2 => [0, 1, 2]
  | 3 => [0, 1, 3]
  | _ => [0, 4]

theorem heapOk_nestedJoins : HeapOk nestedJoins := heapOk_irOfLists (by decide)

theorem chains_nestedJoins : Chains nestedJoins 0 5 nestedChain := by decide

theorem reachable_nestedJoins {b : ℕ} : Reachable (cfgEdge nestedJoins) 0 b ↔ b < 5 :=
  chains_nestedJoins.reachable_iff

theorem correctDoms_nestedJoins : CorrectDoms nestedJoins 0 nestedDoms :=
  chains_nestedJoins.correctDoms (by decide)

theorem correctFrontiers_nestedJoins : CorrectFrontiers nestedJoins 0 nestedFrontiers :=
  chains_nestedJoins.correctFrontiers (by decide)

theorem ssaFunction_nestedJoins : SsaFunction nestedJoins 0 :=
  chains_nestedJoins.ssaFunction (by decide)

theorem loadAssignForm_nestedJoins : LoadAssignForm nestedJoins 0 :=
  ssaFunction_nestedJoins.toLoadAssignForm

/-- The second join is in the iterated frontier only. -/
theorem not_frontierClosed_nestedJoins : ¬ FrontierClosed nestedJoins 0 0 := by
  intro h
  have hassign : Assigning nestedJoins 0 0 2 :=
    ⟨reachable_nestedJoins.mpr (by decide), 3, by decide, rfl⟩
  have hy : Frontier (cfgEdge nestedJoins) 0 2 3 :=
    (correctFrontiers_nestedJoins 2 (reachable_nestedJoins.mpr (by decide)) 3).mp (by decide)
  have hz : Frontier (cfgEdge nestedJoins) 0 3 4 :=
    (correctFrontiers_nestedJoins 3 (reachable_nestedJoins.mpr (by decide)) 4).mp (by decide)
  obtain ⟨x, ⟨hx, i, hi, hia⟩, hxz⟩ := h 2 3 4 hassign hy hz
  have hmem := (correctFrontiers_nestedJoins x hx 4).mpr hxz
  rw [reachable_nestedJoins] at hx
  have hall : ∀ x < 5, 4 ∈ domfrontiersGet nestedFrontiers x → ∀ i ∈ nestedJoins.blocks x,
      (nestedJoins.insts i).type ≠ .assignVar 0 := by decide
  exact hall x hx hmem i hi hia

/-- **A phi is missing.**  The iterated frontier of the only variable has the block `4`,
which gets no phi. -/
theorem placePhis_not_iterated : HeapOk nestedJoins ∧ CorrectDoms nestedJoins 0 nestedDoms ∧
    LoadAssignForm nestedJoins 0 ∧ CorrectFrontiers nestedJoins 0 nestedFrontiers ∧
    IsVariable nestedJoins 0 0 ∧
    ∃ bound, ∀ fuel, bound ≤ fuel → ∃ blockInfo vm s,
      analyzeBlocks nestedJoins nestedDoms = some (blockInfo, vm) ∧
      placePhis nestedDoms nestedFrontiers fuel nestedJoins blockInfo vm = some s ∧
      ¬ ∀ b, HoldsPhi nestedDoms s b 0 ↔
        IteratedFrontier (cfgEdge nestedJoins) 0 (Assigning nestedJoins 0 0) b := by
  have hvar : IsVariable nestedJoins 0 0 := ⟨0, .root, 0, by decide, rfl⟩
  refine ⟨heapOk_nestedJoins, correctDoms_nestedJoins, loadAssignForm_nestedJoins,
    correctFrontiers_nestedJoins, hvar, ?_⟩
  obtain ⟨bound, h⟩ := placePhis_holds heapOk_nestedJoins correctDoms_nestedJoins
    loadAssignForm_nestedJoins correctFrontiers_nestedJoins
  refine ⟨bound, fun fuel hfuel => ?_⟩
  obtain ⟨blockInfo, vm, s, hrun, hplace, hholds⟩ := h fuel hfuel
  refine ⟨blockInfo, vm, s, hrun, hplace, fun hall => not_frontierClosed_nestedJoins ?_⟩
  have hfirst : ¬ firstVariable nestedJoins nestedDoms ≠ some 0 := by decide
  refine frontier_iterated_iff.mp fun b => ?_
  rw [← hall b, hholds 0 hvar b, correctFrontiers_nestedJoins.placedAt_first (fun _ hx => hx.1) hfirst]
