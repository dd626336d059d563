/-
# Use lists after the conversion

`inst_remove` takes an instruction out of its block; its operands stay in the use lists of
other values.  An assign that is removed is so still a use of the value it assigned
(`Converted.assign_used`), and only a function without assigns has nothing to remove
(`Converted.unchanged`).  `ssaConvert_usesLive_iff` : after the conversion the use lists name
linked instructions alone if they did so before, and the function has no assigns.
-/
import MCompiler.SsaDominance

open FlowGraph

/-- The instruction is in the list of the block that it names as its parent. -/
def Linked (ir : Ir) (i : ℕ) : Prop := i ∈ ir.blocks (ir.insts i).parent

/-- A constant, a block, or an instruction of a reachable block. -/
def ValueOf (ir : Ir) (entry : ℕ) : Value → Prop
  | .inst j => ∃ b, Reachable (cfgEdge ir) entry b ∧ j ∈ ir.blocks b
  | _ => True

/-- **Use lists name linked instructions**, so that `value_hasUse` tells whether one of them has
the value as an operand. -/
structure UsesLive (ir : Ir) (entry : ℕ) : Prop where
  linked : ∀ v, ValueOf ir entry v → ∀ u ∈ ir.uses v, Linked ir u.inst
  hasUse : ∀ v, ValueOf ir entry v →
    (valueHasUse ir v = true ↔ ∃ u, Linked ir u.inst ∧ ir.operand u = some v)

/-- No reachable block has an assign. -/
def NoAssigns (ir : Ir) (entry : ℕ) : Prop :=
  ∀ b, Reachable (cfgEdge ir) entry b → ∀ i ∈ ir.blocks b, ∀ a,
    (ir.insts i).type ≠ .assignVar a

/-- The use lists hold the operands, so that the second part follows from the first. -/
theorem usesLive_iff {ir : Ir} {entry : ℕ} (h : UseLists ir) : UsesLive ir entry ↔
    ∀ v, ValueOf ir entry v → ∀ u, ir.operand u = some v → Linked ir u.inst := by
  constructor
  · exact fun hlive v hv u hu => hlive.linked v hv u ((h.mem v u).mpr hu)
  · intro hall
    refine ⟨fun v hv u hu => hall v hv u ((h.mem v u).mp hu), fun v hv => ?_⟩
    unfold valueHasUse
    rw [decide_eq_true_eq, Nat.ne_zero_iff_zero_lt, List.length_pos_iff_exists_mem]
    refine exists_congr fun u => ?_
    rw [h.mem v u]
    exact ⟨fun hu => ⟨hall v hv u hu, hu⟩, And.right⟩

section Converted

variable {ir : Ir} {entry : ℕ} {phis : ℕ → List PhiInfo} {r : Renaming} {done : List ℕ}
  {pushed : List PhiOperand} {mid mid' ir' : Ir} {b i : ℕ}

theorem Converted.useLists (h : Converted ir entry phis r done pushed mid mid' ir') :
    UseLists ir' := by
  have hoperand : ir'.operand = mid'.operand := by
    funext u
    unfold Ir.operand
    rw [h.only.insts]
  have hlists := h.renamed.rewritten.uses
  refine ⟨fun v u => ?_, fun v => ?_⟩
  · rw [h.only.uses, hoperand]
    exact hlists.mem v u
  · rw [h.only.uses]
    exact hlists.nodup v

/-! ## Assigns -/

/-- **An assign that is removed** stays a use of a value of the function. -/
theorem Converted.assign_used (h : Converted ir entry phis r done pushed mid mid' ir')
    (hheap : HeapOk ir) (hb : Reachable (cfgEdge ir) entry b) (hi : i ∈ ir.blocks b) {a : ℕ}
    (htype : (ir.insts i).type = .assignVar a) :
    ∃ v, ValueOf ir' entry v ∧ ir'.operand ⟨i, 0⟩ = some v ∧ ¬ Linked ir' i := by
  obtain ⟨doms, hinput⟩ := h.input
  have hbmid := (h.reachable_iff hheap).mpr hb
  have himid : i ∈ mid.blocks b := h.filled.mem_blocks.mpr (.inr hi)
  have htype' : (mid.insts i).type = .assignVar a := by
    rw [h.filled.insts_of_mem hheap hi]
    exact htype
  have hnophi : (mid.insts i).type ≠ .phi := by
    rw [htype']
    exact InstType.noConfusion
  obtain ⟨w, hw, hok⟩ := hinput.assign_operand hbmid himid htype'
  have hop : ir'.operand ⟨i, 0⟩ = some (sub r.value w) := by
    rw [h.operand_eq hnophi, hw]
    rfl
  refine ⟨sub r.value w, ?_, hop, fun hlinked => ?_⟩
  · -- the value is available at the assign
    obtain ⟨pre, post, hblock⟩ := List.append_of_mem himid
    have havail := h.renamed.blockAvailable hinput hbmid
    have hv : Available mid entry phis b pre (sub r.value w) := by
      refine h.renamed.operand_available hinput hbmid hblock
        (fun x hx => h.renamed.blockAvailable hinput (hx.2.reachable hbmid))
        (fun p j q a hpre hload => havail.load p j (q ++ i :: post) a
          (by rw [hblock, hpre, List.append_assoc]; rfl) hload) hok ?_
      rintro x rfl
      cases hok with
      | block _ hjump =>
          rw [htype'] at hjump
          cases hjump
    cases hval : sub r.value w with
    | const c => trivial
    | block x => trivial
    | inst j =>
        rw [hval] at hv hop
        obtain ⟨x, hx, hj⟩ := hv.exists_dominator hinput hbmid (by
          rw [hblock]
          exact List.subset_append_left _ _)
        have hxb := (h.reachable_iff hheap).mp (hx.reachable hbmid)
        exact ⟨x, (reachable_congr fun a ha y => h.cfgEdge_iff hheap ha y).mp hxb,
          h.attached hj hv.1.2 hop⟩
  · -- it has left its block
    have hparent : (ir'.insts i).parent = b := by
      rw [h.only.insts, h.renamed.rewritten.parent, h.filled.insts_of_mem hheap hi]
      exact hheap.parent b i hi
    unfold Linked at hlinked
    rw [hparent, h.blocks, h.renamed.rewritten.blocks] at hlinked
    have hnot := (List.mem_filter.mp (List.mem_of_mem_filter hlinked)).2
    rw [decide_eq_true_eq] at hnot
    exact hnot ((h.mem_done_iff hheap hb hi).mpr (by rw [htype]; rfl))

/-! ## A function without assigns -/

/-- No variable is assigned, so that no phi is placed. -/
theorem Placed.phis_eq_nil {doms : Dominators} {df : DomFrontiers} {blockInfo : ℕ → BlockInfo}
    {vm : VariableMap} {s : PlaceState}
    (h : Placed ir entry doms df blockInfo vm vm.list.length phis s) (hno : NoAssigns ir entry)
    (b : ℕ) : phis b = [] := by
  apply List.eq_nil_iff_forall_not_mem.mpr
  intro p hp
  obtain ⟨m, hm, hlist, rInfo, hr, hrId⟩ := h.reg b p hp
  obtain ⟨x, hx, i, hi, ha⟩ :=
    ((h.placed m hm _ rInfo hlist hr b).mp ⟨p, hp, hrId.symm⟩).exists_start
  exact hno x hx i hi _ ha

/-- What is in the blocks, if no phi is placed. -/
theorem Converted.mid_blocks_eq (h : Converted ir entry phis r done pushed mid mid' ir')
    (hphis : ∀ b, phis b = []) (b : ℕ) : mid.blocks b = ir.blocks b := by
  obtain ⟨l, hperm, hl⟩ := h.filled.blocks b
  rw [hphis, List.map_nil, List.perm_nil] at hperm
  rw [hl, hperm, List.nil_append]

/-- **Nothing is removed**: a load would have found no value. -/
theorem Converted.done_eq_nil (h : Converted ir entry phis r done pushed mid mid' ir')
    (hheap : HeapOk ir) (hno : NoAssigns ir entry) (hphis : ∀ b, phis b = []) : done = [] := by
  obtain ⟨doms, hinput⟩ := h.input
  have hassign : ∀ x, Reachable (cfgEdge mid) entry x → ∀ j ∈ mid.blocks x, ∀ a,
      (mid.insts j).type ≠ .assignVar a := by
    intro x hx j hj a
    rw [h.mid_blocks_eq hphis] at hj
    rw [h.filled.insts_of_mem hheap hj]
    exact hno x ((h.reachable_iff hheap).mp hx) j hj a
  apply List.eq_nil_iff_forall_not_mem.mpr
  intro i hi
  obtain ⟨c, hc, hic⟩ := (h.renamed.mem_done i).mp hi
  obtain ⟨hic, hla⟩ := mem_loadAssigns.mp hic
  rcases isLoadAssign_iff.mp hla with ⟨a, ha⟩ | ⟨a, ha⟩
  · obtain ⟨pre, post, hblock⟩ := List.append_of_mem hic
    rcases hinput.supplied c hc pre i post a hblock ha with
      ⟨j, hj, hja⟩ | ⟨p, hp, -⟩ | ⟨x, hx, ⟨j, hj, hja⟩ | ⟨p, hp, -⟩⟩
    · refine hassign c hc j ?_ a hja
      rw [hblock]
      exact List.mem_append_left _ hj
    · rw [hphis] at hp
      cases hp
    · exact hassign x (hx.2.reachable hc) j hj a hja
    · rw [hphis] at hp
      cases hp
  · exact hassign c hc i hic a ha

/-- **A function without assigns** stays as it is. -/
theorem Converted.unchanged (h : Converted ir entry phis r done pushed mid mid' ir')
    (hheap : HeapOk ir) (hno : NoAssigns ir entry) (hphis : ∀ b, phis b = []) :
    ir'.blocks = ir.blocks ∧ ir'.operand = ir.operand ∧
      ∀ j < ir.instCount, ir'.insts j = ir.insts j := by
  have hdone := h.done_eq_nil hheap hno hphis
  have hpushed : pushed = [] := by
    apply List.eq_nil_iff_forall_not_mem.mpr
    intro e he
    obtain ⟨-, x, -, p, hp, -⟩ := (h.renamed.mem_pushed e).mp he
    rw [hphis] at hp
    cases hp
  have hvalue : r.value = Value.inst := by
    funext j
    refine h.renamed.kept j (.inl ?_)
    rw [hdone]
    exact List.not_mem_nil
  have hinsts : ir'.insts = mid.insts := by
    funext j
    rw [h.only.insts, h.renamed.rewritten.insts, hvalue, hpushed]
    simp [phiUses]
  refine ⟨?_, ?_, fun j hj => ?_⟩
  · funext c
    rw [h.blocks, h.renamed.rewritten.blocks, hdone, h.mid_blocks_eq hphis, hphis]
    simp [Unused]
  · funext u
    rw [← h.filled.operand hheap]
    unfold Ir.operand
    rw [hinsts]
  · rw [hinsts, h.filled.insts j hj]

theorem Converted.usesLive_congr (h : Converted ir entry phis r done pushed mid mid' ir')
    (hheap : HeapOk ir) (hno : NoAssigns ir entry) (hphis : ∀ b, phis b = []) :
    UsesLive ir' entry ↔ UsesLive ir entry := by
  obtain ⟨hblocks, hoperand, hinsts⟩ := h.unchanged hheap hno hphis
  rw [usesLive_iff h.useLists, usesLive_iff hheap.uses, hoperand]
  have hvalue : ∀ v, ValueOf ir' entry v ↔ ValueOf ir entry v := by
    intro v
    cases v with
    | const c => rfl
    | block x => rfl
    | inst j =>
        unfold ValueOf
        simp only [hblocks, ← reachable_congr fun a ha y => h.cfgEdge_iff hheap ha y]
  refine forall_congr' fun v => ?_
  rw [hvalue]
  refine forall_congr' fun _ => forall_congr' fun u => forall_congr' fun hu => ?_
  have hlt : u.inst < ir.instCount := by
    by_contra hge
    unfold Ir.operand at hu
    rw [hheap.fresh _ (Nat.le_of_not_lt hge)] at hu
    cases hu
  unfold Linked
  rw [hblocks, hinsts _ hlt]

end Converted

/-- **Use lists after `ssa_convert`** name linked instructions alone if and only if they did so
before, and no reachable block has an assign. -/
theorem ssaConvert_usesLive_iff (ir : Ir) (entry : ℕ) (doms : Dominators) (df : DomFrontiers)
    (hheap : HeapOk ir) (hdoms : CorrectDoms ir entry doms) (hform : SsaFunction ir entry)
    (hdf : ∀ x, Reachable (cfgEdge ir) entry x → ∀ y ∈ domfrontiersGet df x,
      Reachable (cfgEdge ir) entry y) (fuel : ℕ) (ir' : Ir)
    (hrun : ssaConvert doms df fuel ir entry = some ir') :
    UsesLive ir' entry ↔ UsesLive ir entry ∧ NoAssigns ir entry := by
  obtain ⟨blockInfo, vm, phis, s, r, done, pushed, mid', -, -, hplaced, -, hconverted⟩ :=
    converted_of_ssaConvert hheap hdoms hform hdf hrun
  constructor
  · intro hlive
    have hno : NoAssigns ir entry := by
      intro b hb i hi a ha
      obtain ⟨v, hv, hop, hnot⟩ := hconverted.assign_used hheap hb hi ha
      exact hnot ((usesLive_iff hconverted.useLists).mp hlive v hv _ hop)
    exact ⟨(hconverted.usesLive_congr hheap hno (hplaced.phis_eq_nil hno)).mp hlive, hno⟩
  · rintro ⟨hlive, hno⟩
    exact (hconverted.usesLive_congr hheap hno (hplaced.phis_eq_nil hno)).mpr hlive

/-! ## The function with two joins -/

theorem usesLive_nestedJoins : UsesLive nestedJoins 0 := by
  rw [usesLive_iff heapOk_nestedJoins.uses]
  intro v _ u hu
  by_cases hlt : u.inst < 9
  · have hall : ∀ i < 9, i ∈ nestedJoins.blocks (nestedJoins.insts i).parent := by decide
    exact hall u.inst hlt
  · unfold Ir.operand at hu
    rw [heapOk_nestedJoins.fresh _ (Nat.le_of_not_lt hlt)] at hu
    cases hu

/-- **The assigns stay in the use lists** of this function, which named linked instructions
before. -/
theorem ssaConvert_not_usesLive : HeapOk nestedJoins ∧ CorrectDoms nestedJoins 0 nestedDoms ∧
    CorrectFrontiers nestedJoins 0 nestedFrontiers ∧ SsaFunction nestedJoins 0 ∧
    UsesLive nestedJoins 0 ∧
    ∃ ir', ssaConvert nestedDoms nestedFrontiers 20 nestedJoins 0 = some ir' ∧
      ⟨0, 0⟩ ∈ ir'.uses (.const 0) ∧ ¬ Linked ir' 0 ∧ ¬ UsesLive ir' 0 := by
  refine ⟨heapOk_nestedJoins, correctDoms_nestedJoins, correctFrontiers_nestedJoins,
    ssaFunction_nestedJoins, usesLive_nestedJoins, ?_⟩
  have hrun : ∃ ir', ssaConvert nestedDoms nestedFrontiers 20 nestedJoins 0 = some ir' ∧
      ⟨0, 0⟩ ∈ ir'.uses (.const 0) ∧ ¬ 0 ∈ ir'.blocks (ir'.insts 0).parent := by decide
  obtain ⟨ir', hir', hmem, hnot⟩ := hrun
  exact ⟨ir', hir', hmem, hnot, fun hlive =>
    hnot (hlive.linked (.const 0) trivial _ hmem)⟩

/-- The theorem at this function. -/
theorem ssaConvert_usesLive_nestedJoins :
    ∃ ir', ssaConvert nestedDoms nestedFrontiers 20 nestedJoins 0 = some ir' ∧
      (UsesLive ir' 0 ↔ UsesLive nestedJoins 0 ∧ NoAssigns nestedJoins 0) := by
  have hsome : (ssaConvert nestedDoms nestedFrontiers 20 nestedJoins 0).isSome = true := by decide
  obtain ⟨ir', hrun⟩ := Option.isSome_iff_exists.mp hsome
  exact ⟨ir', hrun, ssaConvert_usesLive_iff nestedJoins 0 nestedDoms nestedFrontiers
    heapOk_nestedJoins correctDoms_nestedJoins ssaFunction_nestedJoins
    correctFrontiers_nestedJoins.reachable 20 ir' hrun⟩
