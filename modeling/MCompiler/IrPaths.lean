/-
# Execution along the paths of the control flow graph

A path is a list of blocks, and a function is executed along it whatever its branches
decide.  When control comes to a block, all its phis take the operand that is paired with the
block control came from; then its instructions follow in order.  A result that was never
computed, a register that was never assigned and a phi without an operand for the block have
no value (`none`).

* `stateAt` : the state at a position of the last block of a path;
* `runPath` : the state at the end of a path;
* `runPath_results`, `runPath_regs` : what the blocks of a path leave as it is;
* `runPath_removed` : instructions that nothing uses can be removed if they are phis.
-/
import Mathlib.Data.List.Induction
import MCompiler.StructuredProgram

section Machine

variable {V : Type}

/-- A state: the block control came from, the results of the instructions, the registers,
and what the instructions other than phis, loads and assigns had as operands so far. -/
structure PathState (V : Type) where
  block : Option ℕ
  results : ℕ → Option V
  regs : ℕ → Option V
  trace : List (ℕ × List (Option V))

/-- The pair of a phi for a block. -/
def phiOperand (block : ℕ) : List (Option Value) → Option Value
  | b :: v :: uses => if b = some (.block block) then v else phiOperand block uses
  | _ => none

variable (sem : ValueSemantics V) (ir : Ir)

/-- A value, given the results so far; a block is no number. -/
def valueAt (results : ℕ → Option V) : Value → Option V
  | .inst i => results i
  | .const c => some (sem.number (ir.consts c))
  | .block _ => none

/-- The operand in a slot. -/
def operandAt (results : ℕ → Option V) (i k : ℕ) : Option V :=
  (ir.operand ⟨i, k⟩).bind (valueAt sem ir results)

/-- The operands of an instruction. -/
def operandsAt (results : ℕ → Option V) (i : ℕ) : List (Option V) :=
  (ir.insts i).uses.map fun o => o.bind (valueAt sem ir results)

/-- What a phi takes. -/
def phiResult (σ : PathState V) (i : ℕ) : Option V :=
  (σ.block.bind fun block => phiOperand block (ir.insts i).uses).bind (valueAt sem ir σ.results)

/-- Control comes to a block, and its phis take their operands at once. -/
def enterBlock (σ : PathState V) (b : ℕ) : PathState V :=
  { σ with
    block := some b
    results := fun i =>
      if i ∈ ir.blocks b ∧ (ir.insts i).type = .phi then phiResult sem ir σ i else σ.results i }

/-- One instruction. -/
def execInst (σ : PathState V) (i : ℕ) : PathState V :=
  match (ir.insts i).type with
  | .phi => σ
  | .loadVar rId => { σ with results := Function.update σ.results i (σ.regs rId) }
  | .assignVar rId =>
      { σ with regs := Function.update σ.regs rId (operandAt sem ir σ.results i 0) }
  | .binary op =>
      { σ with
        results := Function.update σ.results i (do
          let left ← operandAt sem ir σ.results i 0
          let right ← operandAt sem ir σ.results i 1
          return sem.binary op left right)
        trace := σ.trace ++ [(i, operandsAt sem ir σ.results i)] }
  | _ => { σ with trace := σ.trace ++ [(i, operandsAt sem ir σ.results i)] }

/-- One block. -/
def execBlock (σ : PathState V) (b : ℕ) : PathState V :=
  (ir.blocks b).foldl (execInst sem ir) (enterBlock sem ir σ b)

/-- Before the first block. -/
def pathStart : PathState V := ⟨none, fun _ => none, fun _ => none, []⟩

/-- The state at the end of a path. -/
def runPath (w : List ℕ) : PathState V := w.foldl (execBlock sem ir) pathStart

/-- The state after the blocks `w` and the instructions `pre` of the block `b`. -/
def stateAt (w : List ℕ) (b : ℕ) (pre : List ℕ) : PathState V :=
  pre.foldl (execInst sem ir) (enterBlock sem ir (runPath sem ir w) b)

variable {sem ir} {σ : PathState V} {w pre l : List ℕ} {a b i j : ℕ}

/-! ## Positions of a path -/

theorem runPath_append (w w' : List ℕ) :
    runPath sem ir (w ++ w') = w'.foldl (execBlock sem ir) (runPath sem ir w) := List.foldl_append

theorem runPath_concat (w : List ℕ) (b : ℕ) :
    runPath sem ir (w ++ [b]) = stateAt sem ir w b (ir.blocks b) := runPath_append w [b]

theorem stateAt_concat (w : List ℕ) (b : ℕ) (pre : List ℕ) (i : ℕ) :
    stateAt sem ir w b (pre ++ [i]) = execInst sem ir (stateAt sem ir w b pre) i :=
  List.foldl_append

/-- Phis do nothing where they stand. -/
theorem stateAt_phis (hl : ∀ i ∈ l, (ir.insts i).type = .phi) :
    stateAt sem ir w b (l ++ pre) = stateAt sem ir w b pre := by
  have hfold : ∀ σ : PathState V, l.foldl (execInst sem ir) σ = σ := by
    induction l with
    | nil => exact fun σ => rfl
    | cons i l ih =>
        intro σ
        have hi : execInst sem ir σ i = σ := by
          unfold execInst
          rw [hl i List.mem_cons_self]
        rw [List.foldl_cons, hi]
        exact ih (fun j hj => hl j (List.mem_cons_of_mem _ hj)) σ
  unfold stateAt
  rw [List.foldl_append, hfold]

/-! ## What instructions leave as it is -/

theorem execInst_block : (execInst sem ir σ i).block = σ.block := by
  unfold execInst
  split <;> rfl

theorem stateAt_block : (stateAt sem ir w b pre).block = some b := by
  induction pre using List.reverseRecOn with
  | nil => rfl
  | append_singleton pre i ih => rw [stateAt_concat, execInst_block, ih]

theorem execInst_results (hj : j ≠ i) : (execInst sem ir σ i).results j = σ.results j := by
  unfold execInst
  split <;> first | rfl | exact Function.update_of_ne hj _ _

theorem execInst_regs (hi : (ir.insts i).type ≠ .assignVar a) :
    (execInst sem ir σ i).regs a = σ.regs a := by
  unfold execInst
  split
  · rfl
  · rfl
  · rename_i rId htype
    have hne : a ≠ rId := by
      rintro rfl
      exact hi htype
    exact Function.update_of_ne hne _ _
  · rfl
  · rfl

theorem enterBlock_results (hj : ¬ (j ∈ ir.blocks b ∧ (ir.insts j).type = .phi)) :
    (enterBlock sem ir σ b).results j = σ.results j := if_neg hj

theorem foldl_execInst_results (hj : j ∉ l) :
    (l.foldl (execInst sem ir) σ).results j = σ.results j := by
  induction l generalizing σ with
  | nil => rfl
  | cons i l ih =>
      rw [List.mem_cons, not_or] at hj
      rw [List.foldl_cons, ih hj.2, execInst_results hj.1]

theorem foldl_execInst_regs (hl : ∀ i ∈ l, (ir.insts i).type ≠ .assignVar a) :
    (l.foldl (execInst sem ir) σ).regs a = σ.regs a := by
  induction l generalizing σ with
  | nil => rfl
  | cons i l ih =>
      rw [List.foldl_cons, ih fun j hj => hl j (List.mem_cons_of_mem _ hj),
        execInst_regs (hl i List.mem_cons_self)]

/-- **Results of other blocks stay.** -/
theorem runPath_results {w' : List ℕ} (hj : ∀ b ∈ w', j ∉ ir.blocks b) :
    (runPath sem ir (w ++ w')).results j = (runPath sem ir w).results j := by
  rw [runPath_append]
  generalize runPath sem ir w = σ
  induction w' generalizing σ with
  | nil => rfl
  | cons b w' ih =>
      have hb := hj b List.mem_cons_self
      rw [List.foldl_cons, ih (fun c hc => hj c (List.mem_cons_of_mem _ hc)), execBlock,
        foldl_execInst_results hb, enterBlock_results fun h => hb h.1]

/-- **Registers that no block assigns stay.** -/
theorem runPath_regs {w' : List ℕ}
    (ha : ∀ b ∈ w', ∀ i ∈ ir.blocks b, (ir.insts i).type ≠ .assignVar a) :
    (runPath sem ir (w ++ w')).regs a = (runPath sem ir w).regs a := by
  rw [runPath_append]
  generalize runPath sem ir w = σ
  induction w' generalizing σ with
  | nil => rfl
  | cons b w' ih =>
      rw [List.foldl_cons, ih (fun c hc => ha c (List.mem_cons_of_mem _ hc)), execBlock,
        foldl_execInst_regs (ha b List.mem_cons_self)]
      rfl

/-! ## Removing instructions that nothing uses -/

section Removed

variable {ir' : Ir}

/-- An operand of some instruction. -/
def IsOperand (ir : Ir) (j : ℕ) : Prop := ∃ u, ir.operand u = some (.inst j)

/-- States that differ in results that nothing uses. -/
structure SameUsed (ir : Ir) (σ τ : PathState V) : Prop where
  block : τ.block = σ.block
  regs : τ.regs = σ.regs
  trace : τ.trace = σ.trace
  results : ∀ j, IsOperand ir j → τ.results j = σ.results j

theorem phiOperand_mem {block : ℕ} {uses : List (Option Value)} {v : Value}
    (h : phiOperand block uses = some v) : some v ∈ uses := by
  fun_induction phiOperand block uses with
  | case1 v' uses =>
      rw [h]
      exact List.mem_cons_of_mem _ List.mem_cons_self
  | case2 b v' uses hb ih => exact List.mem_cons_of_mem _ (List.mem_cons_of_mem _ (ih h))
  | case3 => cases h

theorem isOperand_of_mem (h : some (.inst j) ∈ (ir.insts i).uses) : IsOperand ir j := by
  obtain ⟨k, hk⟩ := List.mem_iff_getElem?.mp h
  refine ⟨⟨i, k⟩, ?_⟩
  unfold Ir.operand
  dsimp only
  rw [hk]
  rfl

section SameUsed

variable {τ : PathState V} (hinsts : ir'.insts = ir.insts) (hconsts : ir'.consts = ir.consts)
  (h : SameUsed ir σ τ)
include hconsts h

/-- Operands have the same values. -/
theorem valueAt_sameUsed {v : Value} (hv : ∀ j, v = .inst j → IsOperand ir j) :
    valueAt sem ir' τ.results v = valueAt sem ir σ.results v := by
  cases v with
  | inst j => exact h.results j (hv j rfl)
  | const c =>
      show some _ = some _
      rw [hconsts]
  | block b => rfl

include hinsts

theorem operandAt_sameUsed (i k : ℕ) :
    operandAt sem ir' τ.results i k = operandAt sem ir σ.results i k := by
  have hop : ir'.operand ⟨i, k⟩ = ir.operand ⟨i, k⟩ := by
    unfold Ir.operand
    rw [hinsts]
  unfold operandAt
  rw [hop]
  cases hv : ir.operand ⟨i, k⟩ with
  | none => rfl
  | some v => exact valueAt_sameUsed hconsts h fun j hj => ⟨⟨i, k⟩, hj ▸ hv⟩

theorem operandsAt_sameUsed (i : ℕ) :
    operandsAt sem ir' τ.results i = operandsAt sem ir σ.results i := by
  unfold operandsAt
  rw [hinsts]
  refine List.map_congr_left fun o ho => ?_
  cases o with
  | none => rfl
  | some v => exact valueAt_sameUsed hconsts h fun j hj => isOperand_of_mem (hj ▸ ho)

theorem phiResult_sameUsed (i : ℕ) : phiResult sem ir' τ i = phiResult sem ir σ i := by
  unfold phiResult
  rw [hinsts, h.block]
  cases hv : σ.block.bind fun block => phiOperand block (ir.insts i).uses with
  | none => rfl
  | some v =>
      obtain ⟨block, -, hv⟩ := Option.bind_eq_some_iff.mp hv
      exact valueAt_sameUsed hconsts h fun j hj => isOperand_of_mem (hj ▸ phiOperand_mem hv)

theorem execInst_sameUsed (i : ℕ) : SameUsed ir (execInst sem ir σ i) (execInst sem ir' τ i) := by
  have hupdate : ∀ x, ∀ j, IsOperand ir j →
      Function.update τ.results i x j = Function.update σ.results i x j := by
    intro x j hj
    rw [Function.update_apply, Function.update_apply, h.results j hj]
  unfold execInst
  rw [hinsts, operandAt_sameUsed hinsts hconsts h, operandAt_sameUsed hinsts hconsts h,
    operandsAt_sameUsed hinsts hconsts h, h.regs, h.trace]
  split
  · exact h
  · exact ⟨h.block, rfl, rfl, hupdate _⟩
  · exact ⟨h.block, rfl, rfl, h.results⟩
  · exact ⟨h.block, rfl, rfl, hupdate _⟩
  · exact ⟨h.block, rfl, rfl, h.results⟩

end SameUsed

variable {keep : ℕ → ℕ → Bool}

/-- **Phis that nothing uses can be removed.** -/
theorem runPath_removed (hinsts : ir'.insts = ir.insts) (hconsts : ir'.consts = ir.consts)
    (hblocks : ∀ b, ir'.blocks b = (ir.blocks b).filter (keep b))
    (hdrop : ∀ b, ∀ i ∈ ir.blocks b, keep b i = false →
      (ir.insts i).type = .phi ∧ ¬ IsOperand ir i) (w : List ℕ) :
    SameUsed ir (runPath sem ir w) (runPath sem ir' w) := by
  induction w using List.reverseRecOn with
  | nil => exact ⟨rfl, rfl, rfl, fun _ _ => rfl⟩
  | append_singleton w b ih =>
      have hfold : ∀ l ⊆ ir.blocks b, ∀ σ τ : PathState V, SameUsed ir σ τ →
          SameUsed ir (l.foldl (execInst sem ir) σ)
            ((l.filter (keep b)).foldl (execInst sem ir') τ) := by
        intro l
        induction l with
        | nil => exact fun _ σ τ h => h
        | cons i l ihl =>
            intro hsub σ τ h
            obtain ⟨hi, hl⟩ := List.cons_subset.mp hsub
            cases hkeep : keep b i with
            | true =>
                rw [List.filter_cons_of_pos hkeep]
                exact ihl hl _ _ (execInst_sameUsed hinsts hconsts h i)
            | false =>
                have hphi : execInst sem ir σ i = σ := by
                  unfold execInst
                  rw [(hdrop b i hi hkeep).1]
                rw [List.filter_cons_of_neg (by simp [hkeep]), List.foldl_cons, hphi]
                exact ihl hl _ _ h
      have henter : SameUsed ir (enterBlock sem ir (runPath sem ir w) b)
          (enterBlock sem ir' (runPath sem ir' w) b) := by
        refine ⟨rfl, ih.regs, ih.trace, fun j hj => ?_⟩
        have hmem : j ∈ ir'.blocks b ∧ (ir'.insts j).type = .phi ↔
            j ∈ ir.blocks b ∧ (ir.insts j).type = .phi := by
          rw [hblocks, hinsts, List.mem_filter]
          refine and_congr_left fun _ => and_iff_left_of_imp fun hjb => ?_
          by_contra hkeep
          exact (hdrop b j hjb (Bool.eq_false_iff.mpr hkeep)).2 hj
        show (if j ∈ ir'.blocks b ∧ _ then _ else _) = if j ∈ ir.blocks b ∧ _ then _ else _
        rw [phiResult_sameUsed hinsts hconsts ih, ih.results j hj]
        exact if_congr hmem rfl rfl
      rw [runPath_concat, runPath_concat]
      unfold stateAt
      rw [hblocks]
      exact hfold _ (List.Subset.refl _) _ _ henter

end Removed

end Machine
