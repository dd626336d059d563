/-
# The renamed function along paths

Along every path the renamed function computes what the function with loads and assigns
computes, if the phis suffice: the stacks of the walk over the dominator tree hold the values
that were assigned last on the path (`RenamedFilling.pathAgree`).  The proof goes along the
path.  At a block with a phi for a register, the phi takes the value at the end of the
block before; at a block without one, the value is that of the last visit of the immediate
dominator, behind which nothing was assigned.
-/
import MCompiler.IrPaths
import MCompiler.SsaDominance
import MCompiler.SsaReaching

open FlowGraph

/-- The instructions that renaming leaves. -/
def remaining (ir : Ir) (l : List ℕ) : List ℕ := l.filter fun i => ¬ (ir.insts i).type.isLoadAssign

/-- A function in load/assign form, the function with phis in front of its blocks, and the
renamed function. -/
structure RenamedFilling (ir : Ir) (entry : ℕ) (phis : ℕ → List PhiInfo) (doms : Dominators)
    (r : Renaming) (done : List ℕ) (pushed : List PhiOperand) (mid mid' : Ir) : Prop where
  heap : HeapOk ir
  form : SsaFunction ir entry
  free : PhiFree ir entry
  filled : Filled ir phis mid
  input : RenameInput mid entry phis doms
  renamed : Renamed mid entry phis (Reachable (cfgEdge mid) entry) r done pushed mid'

/-- The registers at a position of the block `b`. -/
def envAt (mid : Ir) (phis : ℕ → List PhiInfo) (r : Renaming) (b : ℕ) (pre : List ℕ) : Env :=
  blockEnv mid r.value (phiEnv (phis b) (r.inEnv b)) pre

section Renamed

variable {ir mid mid' : Ir} {entry : ℕ} {phis : ℕ → List PhiInfo} {doms : Dominators}
  {r : Renaming} {done : List ℕ} {pushed : List PhiOperand} {a b d i j x z : ℕ}
  {pre post w : List ℕ} {v : Value}

/-! ## The objects -/

theorem RenamedFilling.reachable (h : RenamedFilling ir entry phis doms r done pushed mid mid')
    (hb : Reachable (cfgEdge ir) entry b) : Reachable (cfgEdge mid) entry b := by
  rwa [h.filled.cfgEdge_eq h.heap]

theorem RenamedFilling.consts (h : RenamedFilling ir entry phis doms r done pushed mid mid') :
    mid'.consts = ir.consts := h.renamed.rewritten.consts.trans h.filled.consts

/-- An instruction of the function after renaming. -/
theorem RenamedFilling.insts_eq (h : RenamedFilling ir entry phis doms r done pushed mid mid')
    (hb : Reachable (cfgEdge ir) entry b) (hi : i ∈ ir.blocks b) :
    mid'.insts i =
      { ir.insts i with uses := (ir.insts i).uses.map (Option.map (sub r.value)) } := by
  have hmid := h.filled.insts_of_mem h.heap hi
  have hphi : phiUses pushed i = [] := by
    refine h.renamed.phiUses_eq_nil h.input.toRenameForm ?_
    rw [hmid]
    exact h.free b hb i hi
  rw [h.renamed.rewritten.insts, hphi, hmid, List.append_nil]

theorem RenamedFilling.operand_eq (h : RenamedFilling ir entry phis doms r done pushed mid mid')
    (hb : Reachable (cfgEdge ir) entry b) (hi : i ∈ ir.blocks b) (k : ℕ) :
    mid'.operand ⟨i, k⟩ = (ir.operand ⟨i, k⟩).map (sub r.value) := by
  unfold Ir.operand
  dsimp only
  rw [h.insts_eq hb hi]
  dsimp only
  rw [List.getElem?_map]
  cases (ir.insts i).uses[k]? with
  | none => rfl
  | some o => rfl

/-- The phis and the instructions of a block. -/
theorem RenamedFilling.blocks (h : RenamedFilling ir entry phis doms r done pushed mid mid')
    (hb : Reachable (cfgEdge ir) entry b) :
    ∃ l : List ℕ, (∀ i, i ∈ l ↔ ∃ p ∈ phis b, p.phiInst = i) ∧ mid.blocks b = l ++ ir.blocks b ∧
      mid'.blocks b = l ++ remaining ir (ir.blocks b) ∧
      ∀ i ∈ l, (mid.insts i).type = .phi ∧ (mid'.insts i).type = .phi := by
  obtain ⟨l, hperm, hmid, hmid'⟩ := h.filled.renamed_blocks h.heap h.renamed hb
  have hmem : ∀ i, i ∈ l ↔ ∃ p ∈ phis b, p.phiInst = i := by
    intro i
    rw [hperm.mem_iff, List.mem_map]
  refine ⟨l, hmem, hmid, hmid', fun i hi => ?_⟩
  obtain ⟨p, hp, rfl⟩ := (hmem i).mp hi
  have htype := (h.filled.phi b p hp).2.2.1
  exact ⟨htype, by rw [h.renamed.rewritten.type, htype]⟩

theorem RenamedFilling.blocks_subset
    (h : RenamedFilling ir entry phis doms r done pushed mid mid') (b : ℕ) :
    mid'.blocks b ⊆ mid.blocks b := by
  rw [h.renamed.rewritten.blocks]
  exact List.filter_subset_self _

/-- A block of which all instructions have been renamed. -/
theorem RenamedFilling.runPath_eq {V : Type} {sem : ValueSemantics V}
    (h : RenamedFilling ir entry phis doms r done pushed mid mid')
    (hb : Reachable (cfgEdge ir) entry b) (w : List ℕ) :
    runPath sem mid' (w ++ [b]) = stateAt sem mid' w b (remaining ir (ir.blocks b)) := by
  obtain ⟨l, -, -, hblocks, hphi⟩ := h.blocks hb
  rw [runPath_concat, hblocks, stateAt_phis fun i hi => (hphi i hi).2]

/-! ## Registers and availability -/

/-- Phis are available at the start of their block. -/
theorem Available.of_phis {l : List ℕ} (hl : ∀ i, i ∈ l → ∃ p ∈ phis b, p.phiInst = i)
    (h : Available mid entry phis b (l ++ pre) v) : Available mid entry phis b pre v := by
  cases v with
  | const c => trivial
  | block x => exact h
  | inst j =>
      refine ⟨h.1, ?_⟩
      rcases h.2 with hj | hj
      · rcases List.mem_append.mp hj with hj | hj
        · exact .inr (.inl (hl j hj))
        · exact .inl hj
      · exact .inr hj

/-- What is available is not what is computed next. -/
theorem RenamedFilling.ne_inst (h : RenamedFilling ir entry phis doms r done pushed mid mid')
    (hb : Reachable (cfgEdge ir) entry b) (hblock : ir.blocks b = pre ++ i :: post)
    (hv : Available mid entry phis b pre v) : v ≠ .inst i := by
  rintro rfl
  have hi : i ∈ ir.blocks b := mem_of_split hblock
  have hnodup := h.heap.nodup b
  rw [hblock] at hnodup
  rcases hv.2 with hpre | ⟨p, hp, rfl⟩ | ⟨x, hx, hix⟩
  · exact (List.nodup_append.mp hnodup).2.2 _ hpre _ List.mem_cons_self rfl
  · refine h.free b hb _ hi ?_
    rw [← h.filled.insts_of_mem h.heap hi]
    exact (h.filled.phi b p hp).2.2.1
  · exact hx.1 (h.input.heap.block_unique hix (h.filled.mem_blocks.mpr (.inr hi)))

/-- What is available in a block is not computed below it. -/
theorem RenamedFilling.not_mem_below
    (h : RenamedFilling ir entry phis doms r done pushed mid mid')
    (hb : Reachable (cfgEdge ir) entry z) (hz : StrictlyDominates (cfgEdge ir) entry b z)
    (hpre : pre ⊆ mid.blocks b) (hv : Available mid entry phis b pre (.inst j)) :
    j ∉ mid.blocks z := by
  intro hj
  have hreach := h.reachable hb
  rw [← h.filled.cfgEdge_eq h.heap] at hz
  obtain ⟨x, hx, hjx⟩ := hv.exists_dominator h.input (hz.2.reachable hreach) hpre
  have heq := h.input.heap.block_unique hjx hj
  exact hz.1 (hz.2.antisymm hreach (heq ▸ hx))

/-- Phis in front of a list of instructions do not change the registers. -/
theorem blockEnv_phis {l : List ℕ} (hl : ∀ i ∈ l, (mid.insts i).type = .phi) (env : Env) :
    blockEnv mid r.value env (l ++ pre) = blockEnv mid r.value env pre := by
  have hnil : blockEnv mid r.value env l = env := by
    induction l with
    | nil => rfl
    | cons i l ih =>
        have hi : instEnv mid r.value env i = env := by
          refine instEnv_other fun a ha => ?_
          rw [hl i List.mem_cons_self] at ha
          cases ha
        show blockEnv mid r.value (instEnv mid r.value env i) l = env
        rw [hi]
        exact ih fun j hj => hl j (List.mem_cons_of_mem _ hj)
  rw [blockEnv_append, hnil]

/-- What the registers hold is available. -/
theorem RenamedFilling.env_available
    (h : RenamedFilling ir entry phis doms r done pushed mid mid')
    (hb : Reachable (cfgEdge ir) entry b) (hblock : ir.blocks b = pre ++ post)
    (hv : envAt mid phis r b pre a = some v) : Available mid entry phis b pre v := by
  obtain ⟨l, hl, hmid, -, hphi⟩ := h.blocks hb
  rw [hblock, ← List.append_assoc] at hmid
  refine Available.of_phis (fun i hi => (hl i).mp hi) ?_
  refine (h.renamed.blockAvailable h.input (h.reachable hb)).env _ _ hmid a v ?_
  rwa [blockEnv_phis fun i hi => (hphi i hi).1]

/-- The registers at the end of a block. -/
theorem RenamedFilling.outEnv_eq (h : RenamedFilling ir entry phis doms r done pushed mid mid')
    (hb : Reachable (cfgEdge ir) entry b) : r.outEnv b = envAt mid phis r b (ir.blocks b) := by
  obtain ⟨l, -, hmid, -, hphi⟩ := h.blocks hb
  rw [(h.renamed.blocks b (h.reachable hb)).out, hmid, blockEnv_phis fun i hi => (hphi i hi).1]
  rfl

/-- A load stands for what its register holds. -/
theorem RenamedFilling.env_load (h : RenamedFilling ir entry phis doms r done pushed mid mid')
    (hb : Reachable (cfgEdge ir) entry b) (hblock : ir.blocks b = pre ++ i :: post)
    (htype : (ir.insts i).type = .loadVar a) :
    envAt mid phis r b pre a = some (r.value i) := by
  obtain ⟨l, -, hmid, -, hphi⟩ := h.blocks hb
  have hi : i ∈ ir.blocks b := mem_of_split hblock
  rw [hblock, ← List.append_assoc] at hmid
  rw [← h.filled.insts_of_mem h.heap hi] at htype
  have hload := (h.renamed.blocks b (h.reachable hb)).load (l ++ pre) i post a hmid htype
  rwa [blockEnv_phis fun i hi => (hphi i hi).1] at hload

/-- The result of an earlier instruction of the block stands for an available value. -/
theorem RenamedFilling.value_available
    (h : RenamedFilling ir entry phis doms r done pushed mid mid')
    (hb : Reachable (cfgEdge ir) entry b) (hblock : ir.blocks b = pre ++ post) (hj : j ∈ pre)
    (hresult : (ir.insts j).type.hasResult = true) :
    Available mid entry phis b pre (r.value j) := by
  have hjb : j ∈ ir.blocks b := by
    rw [hblock]
    exact List.mem_append_left _ hj
  obtain ⟨p, q, rfl⟩ := List.append_of_mem hj
  by_cases hload : ∃ a, (ir.insts j).type = .loadVar a
  · obtain ⟨a, ha⟩ := hload
    have hsplit : ir.blocks b = p ++ j :: (q ++ post) := by
      rw [hblock, List.append_assoc, List.cons_append]
    exact (h.env_available hb hsplit (h.env_load hb hsplit ha)).mono
      (List.subset_append_left _ _)
  · have hmid := h.filled.insts_of_mem h.heap hjb
    rw [← hmid] at hresult
    rw [h.renamed.value_eq fun a ha => hload ⟨a, by rwa [hmid] at ha⟩]
    refine ⟨⟨hresult, ?_⟩, .inl (List.mem_append_right _ List.mem_cons_self)⟩
    rw [Bool.eq_false_iff]
    intro hla
    rcases isLoadAssign_iff.mp hla with hl | ⟨a, ha⟩
    · exact hload (by rwa [hmid] at hl)
    · rw [ha] at hresult
      cases hresult

/-- So does the result of an instruction of a strict dominator. -/
theorem RenamedFilling.value_above
    (h : RenamedFilling ir entry phis doms r done pushed mid mid')
    (hb : Reachable (cfgEdge ir) entry b) (hx : StrictlyDominates (cfgEdge ir) entry x b)
    (hj : j ∈ ir.blocks x) (hresult : (ir.insts j).type.hasResult = true) :
    Available mid entry phis b pre (r.value j) := by
  have hv := h.value_available (hx.2.reachable hb) (List.append_nil _).symm hj hresult
  rw [← h.filled.cfgEdge_eq h.heap] at hx
  refine hv.below h.input (h.reachable hb) hx fun i hi => h.filled.mem_blocks.mpr (.inr hi)

end Renamed

/-! ## Agreement along a path -/

/-- The result `j` is computed before the position: earlier in the block `b`, or in a strict
dominator. -/
def ComputedBefore (ir : Ir) (entry b : ℕ) (pre : List ℕ) (j : ℕ) : Prop :=
  (ir.insts j).type.hasResult = true ∧
    (j ∈ pre ∨ ∃ x, StrictlyDominates (cfgEdge ir) entry x b ∧ j ∈ ir.blocks x)

/-- **The two functions agree** at a position of the block `b` behind the blocks `w`: in what
they have computed, and in the values of the registers that may be loaded. -/
structure PathAgree {V : Type} (sem : ValueSemantics V) (ir mid' : Ir) (entry : ℕ) (r : Renaming)
    (env : Env) (w : List ℕ) (b : ℕ) (pre post : List ℕ) (σ τ : PathState V) : Prop where
  trace : τ.trace = σ.trace
  results : ∀ j, ComputedBefore ir entry b pre j →
    valueAt sem mid' τ.results (r.value j) = σ.results j
  regs : ∀ a, Live ir a b post → AssignedOn ir w pre a →
    ∃ v, env a = some v ∧ valueAt sem mid' τ.results v = σ.regs a

section Agree

variable {V : Type} {sem : ValueSemantics V} {ir mid mid' : Ir} {entry : ℕ}
  {phis : ℕ → List PhiInfo} {doms : Dominators} {r : Renaming} {done : List ℕ}
  {pushed : List PhiOperand} {a b d i j k x z : ℕ} {pre post w : List ℕ} {v : Value}
  {σ τ : PathState V} {env : Env}

/-! ### Operands -/

/-- **An operand** has the same value. -/
theorem RenamedFilling.valueAt_sub (h : RenamedFilling ir entry phis doms r done pushed mid mid')
    (hb : Reachable (cfgEdge ir) entry b) (hblock : ir.blocks b = pre ++ i :: post)
    (hagree : PathAgree sem ir mid' entry r env w b pre (i :: post) σ τ)
    (hop : ir.operand ⟨i, k⟩ = some v) :
    valueAt sem mid' τ.results (sub r.value v) = valueAt sem ir σ.results v := by
  have hi : i ∈ ir.blocks b := mem_of_split hblock
  cases h.form.operand b hb i hi (h.free b hb i hi) k v hop with
  | const c =>
      show some _ = some _
      rw [h.consts]
  | block x => rfl
  | @inst j hresult hdef =>
      refine hagree.results j ⟨hresult, ?_⟩
      rcases hdef with ⟨pre', post', hblock', hj⟩ | hx
      · obtain ⟨rfl, rfl⟩ := split_unique (h.heap.nodup b) hblock hblock'
        exact .inl hj
      · exact .inr hx

theorem RenamedFilling.operandAt_eq (h : RenamedFilling ir entry phis doms r done pushed mid mid')
    (hb : Reachable (cfgEdge ir) entry b) (hblock : ir.blocks b = pre ++ i :: post)
    (hagree : PathAgree sem ir mid' entry r env w b pre (i :: post) σ τ) (k : ℕ) :
    operandAt sem mid' τ.results i k = operandAt sem ir σ.results i k := by
  have hi : i ∈ ir.blocks b := mem_of_split hblock
  unfold operandAt
  rw [h.operand_eq hb hi]
  cases hop : ir.operand ⟨i, k⟩ with
  | none => rfl
  | some v => exact h.valueAt_sub hb hblock hagree hop

theorem RenamedFilling.operandsAt_eq
    (h : RenamedFilling ir entry phis doms r done pushed mid mid')
    (hb : Reachable (cfgEdge ir) entry b) (hblock : ir.blocks b = pre ++ i :: post)
    (hagree : PathAgree sem ir mid' entry r env w b pre (i :: post) σ τ) :
    operandsAt sem mid' τ.results i = operandsAt sem ir σ.results i := by
  have hi : i ∈ ir.blocks b := mem_of_split hblock
  unfold operandsAt
  rw [h.insts_eq hb hi, List.map_map]
  refine List.map_congr_left fun o ho => ?_
  cases o with
  | none => rfl
  | some v =>
      obtain ⟨k, hk⟩ := List.mem_iff_getElem?.mp ho
      refine h.valueAt_sub hb hblock hagree (k := k) ?_
      unfold Ir.operand
      dsimp only
      rw [hk]
      rfl

/-! ### One instruction -/

theorem remaining_concat (ir : Ir) (pre : List ℕ) (i : ℕ) : remaining ir (pre ++ [i]) =
    remaining ir pre ++ if (ir.insts i).type.isLoadAssign then [] else [i] := by
  unfold remaining
  rw [List.filter_append, List.filter_singleton]
  cases (ir.insts i).type.isLoadAssign <;> rfl

theorem ComputedBefore.concat (h : ComputedBefore ir entry b (pre ++ [i]) j) (hj : j ≠ i) :
    ComputedBefore ir entry b pre j := by
  refine ⟨h.1, h.2.imp_left fun hmem => ?_⟩
  rcases List.mem_append.mp hmem with hmem | hmem
  · exact hmem
  · exact absurd (List.mem_singleton.mp hmem) hj

theorem AssignedOn.concat (h : AssignedOn ir w (pre ++ [i]) a)
    (hi : (ir.insts i).type ≠ .assignVar a) : AssignedOn ir w pre a := by
  refine h.imp_right ?_
  rintro ⟨j, hj, hja⟩
  rcases List.mem_append.mp hj with hj | hj
  · exact ⟨j, hj, hja⟩
  · exact absurd (List.mem_singleton.mp hj ▸ hja) hi

/-- What is computed before the start of a block is computed before the end of the block that
control came from. -/
theorem ComputedBefore.before (h : ComputedBefore ir entry b [] j) (hE : cfgEdge ir x b) :
    ComputedBefore ir entry x (ir.blocks x) j := by
  obtain ⟨y, hy, hjy⟩ := h.2.resolve_left List.not_mem_nil
  refine ⟨h.1, ?_⟩
  by_cases hyx : y = x
  · exact .inl (hyx ▸ hjy)
  · exact .inr ⟨y, ⟨hyx, hy.of_edge hE⟩, hjy⟩

/-- Nothing is computed before the entry. -/
theorem not_computedBefore_entry : ¬ ComputedBefore ir entry entry [] j := by
  rintro ⟨-, hj | ⟨x, hx, -⟩⟩
  · cases hj
  · exact not_strictlyDominates_root x hx

theorem AssignedOn.before (h : AssignedOn ir (w ++ [x]) [] a) : AssignedOn ir w (ir.blocks x) a := by
  obtain ⟨y, hy, hya⟩ := h.resolve_right (by simp)
  rcases List.mem_append.mp hy with hy | hy
  · exact .inl ⟨y, hy, hya⟩
  · rw [List.mem_singleton.mp hy] at hya
    exact .inr hya

theorem not_assignedOn_nil : ¬ AssignedOn ir [] [] a := by
  rintro (⟨x, hx, -⟩ | ⟨i, hi, -⟩)
  · cases hx
  · cases hi

/-- **Induction over the positions of paths**: along the last block of a path, which starts
behind shorter paths. -/
theorem position_induction {P : List ℕ → ℕ → List ℕ → List ℕ → Prop}
    (start : ∀ w b, Walk (cfgEdge ir) entry (w ++ [b]) b →
      (∀ w' x, w'.length < w.length → Walk (cfgEdge ir) entry (w' ++ [x]) x →
        P w' x (ir.blocks x) []) → P w b [] (ir.blocks b))
    (step : ∀ w b pre i post, Walk (cfgEdge ir) entry (w ++ [b]) b →
      ir.blocks b = pre ++ i :: post → P w b pre (i :: post) → P w b (pre ++ [i]) post)
    (hw : Walk (cfgEdge ir) entry (w ++ [b]) b) (hblock : ir.blocks b = pre ++ post) :
    P w b pre post := by
  obtain ⟨n, hn⟩ : ∃ n, w.length < n := ⟨_, Nat.lt_succ_self _⟩
  induction n generalizing w b pre post with
  | zero => exact absurd hn (Nat.not_lt_zero _)
  | succ n ihn =>
      induction pre using List.reverseRecOn generalizing post with
      | nil =>
          rw [List.nil_append] at hblock
          rw [← hblock]
          exact start w b hw fun w' x hlen hx => ihn hx (List.append_nil _).symm (by omega)
      | append_singleton pre i ih =>
          have hsplit : ir.blocks b = pre ++ i :: post := by
            rw [hblock, List.append_assoc, List.singleton_append]
          exact step w b pre i post hw hsplit (ih hsplit)

theorem envAt_concat (mid : Ir) (phis : ℕ → List PhiInfo) (r : Renaming) (b : ℕ) (pre : List ℕ)
    (i : ℕ) : envAt mid phis r b (pre ++ [i]) = instEnv mid r.value (envAt mid phis r b pre) i :=
  blockEnv_concat pre i

/-- What is computed before is not computed by the next instruction. -/
theorem RenamedFilling.value_ne (h : RenamedFilling ir entry phis doms r done pushed mid mid')
    (hb : Reachable (cfgEdge ir) entry b) (hblock : ir.blocks b = pre ++ i :: post)
    (hj : ComputedBefore ir entry b pre j) : r.value j ≠ .inst i := by
  refine h.ne_inst hb hblock ?_
  rcases hj.2 with hmem | ⟨x, hx, hmem⟩
  · exact h.value_available hb hblock hmem hj.1
  · exact h.value_above hb hx hmem hj.1

theorem valueAt_update {results : ℕ → Option V} {o : Option V} (hv : v ≠ .inst i) :
    valueAt sem ir (Function.update results i o) v = valueAt sem ir results v := by
  cases v with
  | inst j => exact Function.update_of_ne (fun heq => hv (congrArg Value.inst heq)) _ _
  | const c => rfl
  | block x => rfl

/-- **A load** is removed: its result stands for the value of its register. -/
theorem RenamedFilling.agree_load (h : RenamedFilling ir entry phis doms r done pushed mid mid')
    (hassigned : LoadsAssigned ir entry) (hw : Walk (cfgEdge ir) entry (w ++ [b]) b)
    (hblock : ir.blocks b = pre ++ i :: post) (htype : (ir.insts i).type = .loadVar a)
    (hagree : PathAgree sem ir mid' entry r (envAt mid phis r b pre) w b pre (i :: post) σ τ) :
    PathAgree sem ir mid' entry r (envAt mid phis r b (pre ++ [i])) w b (pre ++ [i]) post
      (execInst sem ir σ i) τ := by
  have hb : Reachable (cfgEdge ir) entry b := ⟨_, hw⟩
  have hi : i ∈ ir.blocks b := mem_of_split hblock
  have hne : ∀ a', (ir.insts i).type ≠ .assignVar a' := by
    intro a' ha'
    rw [htype] at ha'
    cases ha'
  have hexec : execInst sem ir σ i =
      { σ with results := Function.update σ.results i (σ.regs a) } := by
    unfold execInst
    rw [htype]
  rw [hexec, envAt_concat, instEnv_other fun a' => by
    rw [h.filled.insts_of_mem h.heap hi]
    exact hne a']
  refine ⟨hagree.trace, fun j hj => ?_, fun a' hlive hon => ?_⟩
  · show _ = Function.update σ.results i (σ.regs a) j
    by_cases hji : j = i
    · subst hji
      obtain ⟨v, henv, hval⟩ := hagree.regs a (.load htype)
        (hassigned w b hw pre j post a hblock htype)
      rw [h.env_load hb hblock htype] at henv
      rw [Function.update_self, Option.some.inj henv, hval]
    · rw [Function.update_of_ne hji]
      exact hagree.results j (hj.concat hji)
  · exact hagree.regs a' (.skip (hne a') hlive) (hon.concat (hne a'))

/-- **An assign** is removed: its operand is what its register holds now. -/
theorem RenamedFilling.agree_assign (h : RenamedFilling ir entry phis doms r done pushed mid mid')
    (hb : Reachable (cfgEdge ir) entry b)
    (hblock : ir.blocks b = pre ++ i :: post) (htype : (ir.insts i).type = .assignVar a)
    (hagree : PathAgree sem ir mid' entry r (envAt mid phis r b pre) w b pre (i :: post) σ τ) :
    PathAgree sem ir mid' entry r (envAt mid phis r b (pre ++ [i])) w b (pre ++ [i]) post
      (execInst sem ir σ i) τ := by
  have hi : i ∈ ir.blocks b := mem_of_split hblock
  obtain ⟨v, huses⟩ := h.form.assign b hb i hi a htype
  have hop : ir.operand ⟨i, 0⟩ = some v := by
    unfold Ir.operand
    dsimp only
    rw [huses]
    rfl
  have hexec : execInst sem ir σ i =
      { σ with regs := Function.update σ.regs a (valueAt sem ir σ.results v) } := by
    unfold execInst
    rw [htype]
    dsimp only
    rw [operandAt, hop]
    rfl
  have htype' := htype
  have hop' := hop
  rw [← h.filled.insts_of_mem h.heap hi] at htype'
  rw [← h.filled.operand h.heap] at hop'
  rw [hexec, envAt_concat, instEnv_assign htype' hop']
  refine ⟨hagree.trace, fun j hj => ?_, fun a' hlive hon => ?_⟩
  · refine hagree.results j (hj.concat ?_)
    rintro rfl
    have hresult := hj.1
    rw [htype] at hresult
    cases hresult
  · show ∃ v', _ ∧ _ = Function.update σ.regs a _ a'
    by_cases ha : a' = a
    · rw [ha, Function.update_self, Function.update_self]
      exact ⟨_, rfl, h.valueAt_sub hb hblock hagree hop⟩
    · have hne : (ir.insts i).type ≠ .assignVar a' := by
        rw [htype]
        exact fun heq => ha (InstType.assignVar.inj heq).symm
      rw [Function.update_of_ne ha, Function.update_of_ne ha]
      exact hagree.regs a' (.skip hne hlive) (hon.concat hne)

/-- **Any other instruction** stays, and computes the same. -/
theorem RenamedFilling.agree_other (h : RenamedFilling ir entry phis doms r done pushed mid mid')
    (hb : Reachable (cfgEdge ir) entry b)
    (hblock : ir.blocks b = pre ++ i :: post) (hla : (ir.insts i).type.isLoadAssign = false)
    (hagree : PathAgree sem ir mid' entry r (envAt mid phis r b pre) w b pre (i :: post) σ τ) :
    PathAgree sem ir mid' entry r (envAt mid phis r b (pre ++ [i])) w b (pre ++ [i]) post
      (execInst sem ir σ i) (execInst sem mid' τ i) := by
  have hi : i ∈ ir.blocks b := mem_of_split hblock
  have hne : ∀ a, (ir.insts i).type ≠ .assignVar a := by
    intro a ha
    rw [ha] at hla
    cases hla
  have htype : (mid'.insts i).type = (ir.insts i).type := by
    rw [h.insts_eq hb hi]
  rw [envAt_concat, instEnv_other fun a => by
    rw [h.filled.insts_of_mem h.heap hi]
    exact hne a]
  -- the result of a binary instruction
  have hresult : ∀ o : Option V, ∀ j, ComputedBefore ir entry b (pre ++ [i]) j →
      (j = i → r.value i = .inst i) →
      valueAt sem mid' (Function.update τ.results i o) (r.value j) =
        Function.update σ.results i o j := by
    intro o j hj hval
    by_cases hji : j = i
    · rw [hji, hval hji, Function.update_self]
      exact Function.update_self _ _ _
    · have hbefore := hj.concat hji
      rw [Function.update_of_ne hji, valueAt_update (h.value_ne hb hblock hbefore)]
      exact hagree.results j hbefore
  have hregs : ∀ a, Live ir a b post → AssignedOn ir w (pre ++ [i]) a →
      ∃ v, envAt mid phis r b pre a = some v ∧ valueAt sem mid' τ.results v = σ.regs a ∧
        v ≠ .inst i := by
    intro a hlive hon
    obtain ⟨v, henv, hval⟩ := hagree.regs a (.skip (hne a) hlive) (hon.concat (hne a))
    exact ⟨v, henv, hval, h.ne_inst hb hblock (h.env_available hb hblock henv)⟩
  have hops := h.operandsAt_eq hb hblock hagree
  have hop := h.operandAt_eq hb hblock hagree
  cases hcase : (ir.insts i).type with
  | phi => exact absurd hcase (h.free b hb i hi)
  | loadVar a =>
      rw [hcase] at hla
      cases hla
  | assignVar a => exact absurd hcase (hne a)
  | binary op =>
      unfold execInst
      rw [htype, hcase]
      dsimp only
      rw [hop, hop, hops, hagree.trace]
      refine ⟨rfl, fun j hj => hresult _ j hj fun _ => ?_, fun a hlive hon => ?_⟩
      · refine h.renamed.value_eq fun a ha => ?_
        rw [h.filled.insts_of_mem h.heap hi, hcase] at ha
        cases ha
      · obtain ⟨v, henv, hval, hv⟩ := hregs a hlive hon
        exact ⟨v, henv, (valueAt_update hv).trans hval⟩
  | _ =>
      unfold execInst
      rw [htype, hcase]
      dsimp only
      rw [hops, hagree.trace]
      refine ⟨rfl, fun j hj => hagree.results j (hj.concat ?_), fun a hlive hon => ?_⟩
      · rintro rfl
        have hres := hj.1
        rw [hcase] at hres
        cases hres
      · obtain ⟨v, henv, hval, -⟩ := hregs a hlive hon
        exact ⟨v, henv, hval⟩

/-! ### Control comes to a block -/

/-- The pair of a phi for a block, among those that were pushed. -/
theorem phiOperand_phiUses (block : ℕ) (pushed : List PhiOperand) (phi : ℕ) :
    phiOperand block (phiUses pushed phi) =
      (pushed.find? fun e => e.phi = phi ∧ e.block = block).map PhiOperand.value := by
  induction pushed with
  | nil => rfl
  | cons e pushed ih =>
      have hcons : phiUses (e :: pushed) phi =
          (if e.phi = phi then [some (.block e.block), some e.value] else []) ++
            phiUses pushed phi := rfl
      rw [hcons, List.find?_cons]
      by_cases hphi : e.phi = phi
      · rw [if_pos hphi]
        show (if some (Value.block e.block) = some (.block block) then some e.value
          else phiOperand block (phiUses pushed phi)) = _
        by_cases hblock : e.block = block
        · rw [if_pos (by rw [hblock]), decide_eq_true ⟨hphi, hblock⟩]
          rfl
        · rw [if_neg (by simpa using hblock), decide_eq_false fun hand => hblock hand.2, ih]
      · rw [if_neg hphi, decide_eq_false fun hand => hphi hand.1, List.nil_append, ih]

/-- **The operand of a phi** for a block is the value of its register at the end of the block. -/
theorem RenamedFilling.phiOperand_eq
    (h : RenamedFilling ir entry phis doms r done pushed mid mid')
    (hx : Reachable (cfgEdge ir) entry x) (hE : cfgEdge ir x b) {q : PhiInfo} (hq : q ∈ phis b) :
    phiOperand x (mid'.insts q.phiInst).uses = r.outEnv x q.rId := by
  have hb := h.reachable (hx.step hE)
  have huses : (mid'.insts q.phiInst).uses = phiUses pushed q.phiInst := by
    rw [h.renamed.rewritten.insts, (h.input.phi b hb q hq).2.2.2]
    rfl
  rw [huses, phiOperand_phiUses]
  cases hfind : pushed.find? fun e => e.phi = q.phiInst ∧ e.block = x with
  | none =>
      symm
      rw [Option.map_none, Option.eq_none_iff_forall_ne_some]
      intro v hv
      have hmem : (⟨x, q.phiInst, v⟩ : PhiOperand) ∈ pushed := by
        refine (h.renamed.mem_pushed _).mpr ⟨h.reachable hx, b, ?_, q, hq, rfl, hv⟩
        rw [h.filled.blockSuccessors_eq h.heap]
        exact hE
      have hnot := List.find?_eq_none.mp hfind _ hmem
      simp at hnot
  | some e =>
      have he := List.find?_some hfind
      obtain ⟨hephi, heblock⟩ := of_decide_eq_true he
      obtain ⟨hW, y, hy, q', hq', hphi, hval⟩ :=
        (h.renamed.mem_pushed e).mp (List.mem_of_find?_eq_some hfind)
      -- the phi belongs to one block and one register
      rw [hephi] at hphi
      have hyb : y = b := h.input.heap.block_unique (hphi ▸ (h.input.phi y (hW.step hy) q' hq').2.1)
        (h.input.phi b hb q hq).2.1
      rw [hyb] at hq'
      have hqq : q' = q := List.inj_on_of_nodup_map (h.filled.nodup b) hq' hq hphi
      rw [hqq, heblock] at hval
      rw [Option.map_some, hval]

theorem valueAt_runPath {w' : List ℕ} (hv : ∀ j, v = .inst j → ∀ z ∈ w', j ∉ ir.blocks z) :
    valueAt sem ir (runPath sem ir (w ++ w')).results v =
      valueAt sem ir (runPath sem ir w).results v := by
  cases v with
  | inst j => exact runPath_results (hv j rfl)
  | const c => rfl
  | block x => rfl

theorem valueAt_enterBlock (hv : ∀ j, v = .inst j → j ∉ ir.blocks b) :
    valueAt sem ir (enterBlock sem ir τ b).results v = valueAt sem ir τ.results v := by
  cases v with
  | inst j => exact enterBlock_results fun hj => hv j rfl hj.1
  | const c => rfl
  | block x => rfl

/-- What is available at the end of a block keeps its value in the blocks below. -/
theorem RenamedFilling.kept_below (h : RenamedFilling ir entry phis doms r done pushed mid mid')
    (hz : Reachable (cfgEdge ir) entry z) (hd : StrictlyDominates (cfgEdge ir) entry d z)
    (hv : Available mid entry phis d (ir.blocks d) v) : ∀ j, v = .inst j → j ∉ mid'.blocks z := by
  rintro j rfl hj
  exact h.not_mem_below hz hd (fun i hi => h.filled.mem_blocks.mpr (.inr hi)) hv
    (h.blocks_subset z hj)

/-- The functions agree at the ends of the paths with fewer than `n` blocks before the last. -/
def AgreeBelow (sem : ValueSemantics V) (ir mid' : Ir) (entry : ℕ) (r : Renaming) (n : ℕ) : Prop :=
  ∀ w d, w.length < n → Walk (cfgEdge ir) entry (w ++ [d]) d →
    PathAgree sem ir mid' entry r (r.outEnv d) w d (ir.blocks d) [] (runPath sem ir (w ++ [d]))
      (runPath sem mid' (w ++ [d]))

/-- A register with a phi: the phi takes its value. -/
theorem RenamedFilling.regs_phi (h : RenamedFilling ir entry phis doms r done pushed mid mid')
    (hx : Reachable (cfgEdge ir) entry x) (hE : cfgEdge ir x b) (hphi : HasPhi phis b a)
    (hblock : τ.block = some x) {o : Option V}
    (hout : ∃ v, r.outEnv x a = some v ∧ valueAt sem mid' τ.results v = o) :
    ∃ v, envAt mid phis r b [] a = some v ∧
      valueAt sem mid' (enterBlock sem mid' τ b).results v = o := by
  have hb := hx.step hE
  rcases phiEnv_cases (phis b) (r.inEnv b) a with ⟨-, hnone⟩ | ⟨q, hq, hqa, heq⟩
  · obtain ⟨q, hq, hqa⟩ := hphi
    exact absurd hqa (hnone q hq)
  · refine ⟨_, heq, ?_⟩
    obtain ⟨v, hv, hval⟩ := hout
    obtain ⟨l, hl, -, hmid', hphis⟩ := h.blocks hb
    have hql := (hl q.phiInst).mpr ⟨q, hq, rfl⟩
    have hin : q.phiInst ∈ mid'.blocks b ∧ (mid'.insts q.phiInst).type = .phi := by
      refine ⟨?_, (hphis _ hql).2⟩
      rw [hmid']
      exact List.mem_append_left _ hql
    show (if q.phiInst ∈ mid'.blocks b ∧ _ then phiResult sem mid' τ q.phiInst else _) = o
    rw [if_pos hin]
    unfold phiResult
    rw [hblock, Option.bind_some, h.phiOperand_eq hx hE hq, hqa, hv]
    exact hval

/-- A register without a phi: it has the value of the last visit of the immediate dominator. -/
theorem RenamedFilling.regs_idom (h : RenamedFilling ir entry phis doms r done pushed mid mid')
    (hphis : PhisSuffice ir entry phis) (hw : Walk (cfgEdge ir) entry (w ++ [b]) b)
    (ih : AgreeBelow sem ir mid' entry r w.length) (hphi : ¬ HasPhi phis b a)
    (hlive : Live ir a b (ir.blocks b)) (hassign : ∃ x ∈ w, Assigns ir a x) :
    ∃ v, envAt mid phis r b [] a = some v ∧
      valueAt sem mid' (enterBlock sem mid' (runPath sem mid' w) b).results v =
        (runPath sem ir w).regs a := by
  have hb : Reachable (cfgEdge ir) entry b := ⟨_, hw⟩
  obtain ⟨x, hx, hxa⟩ := hassign
  have hentry : b ≠ entry := by
    rintro rfl
    exact hphis.no_assign_entry hlive hphi hw x hx hxa
  obtain ⟨d, -, hidom⟩ := h.input.doms.idom b (h.reachable hb) hentry
  have henv : envAt mid phis r b [] a = r.outEnv d a := by
    rcases phiEnv_cases (phis b) (r.inEnv b) a with ⟨heq, -⟩ | ⟨q, hq, hqa, -⟩
    · rw [← (h.renamed.blocks b (h.reachable hb)).idom d hidom]
      exact heq
    · exact absurd ⟨q, hq, hqa⟩ hphi
  rw [h.filled.cfgEdge_eq h.heap] at hidom
  obtain ⟨w₁, s, rfl, hds⟩ := exists_last_idom hw hidom
  have htail := hphis.no_assign_tail hlive hphi hidom hw hds
  have hw' := hw
  rw [List.append_assoc (w₁ ++ [d])] at hw'
  have hw₁ : Walk (cfgEdge ir) entry (w₁ ++ [d]) d := hw'.of_append
  have hd : Reachable (cfgEdge ir) entry d := ⟨_, hw₁⟩
  have hlen : w₁.length < (w₁ ++ [d] ++ s).length := by
    rw [List.length_append, List.length_append, List.length_singleton]
    omega
  have hon : AssignedOn ir w₁ (ir.blocks d) a := by
    rcases List.mem_append.mp hx with hx | hx
    · rcases List.mem_append.mp hx with hx | hx
      · exact .inl ⟨x, hx, hxa⟩
      · rw [List.mem_singleton.mp hx] at hxa
        exact .inr hxa
    · exact absurd hxa (htail x hx)
  obtain ⟨v, hv, hval⟩ := (ih w₁ d hlen hw₁).regs a (.of_walk htail hw hlive) hon
  have hav : Available mid entry phis d (ir.blocks d) v := by
    rw [h.outEnv_eq hd] at hv
    exact h.env_available hd (List.append_nil _).symm hv
  have hdom := hw'.dominates_tail hidom.strict.2 (by
    rw [List.mem_append, List.mem_singleton, not_or]
    exact ⟨hds, hidom.strict.1⟩)
  have hbelow : ∀ z ∈ s, Reachable (cfgEdge ir) entry z ∧
      StrictlyDominates (cfgEdge ir) entry d z := by
    intro z hz
    obtain ⟨p, q, rfl⟩ := List.append_of_mem hz
    have hsplit : w₁ ++ [d] ++ (p ++ z :: q ++ [b]) = (w₁ ++ [d] ++ p) ++ [z] ++ (q ++ [b]) := by
      simp only [List.append_assoc, List.cons_append, List.nil_append]
    rw [hsplit] at hw'
    refine ⟨⟨_, hw'.of_append⟩, ?_, hdom z (List.mem_append_left _ hz)⟩
    rintro rfl
    exact hds hz
  refine ⟨v, henv.trans hv, ?_⟩
  rw [valueAt_enterBlock (h.kept_below hb hidom.strict hav),
    valueAt_runPath fun j hj z hz => h.kept_below (hbelow z hz).1 (hbelow z hz).2 hav j hj, hval,
    runPath_regs fun z hz i hi hia => htail z hz ⟨i, hi, hia⟩]

/-- **Control comes to a block.** -/
theorem RenamedFilling.agree_start (h : RenamedFilling ir entry phis doms r done pushed mid mid')
    (hphis : PhisSuffice ir entry phis) (hw : Walk (cfgEdge ir) entry (w ++ [b]) b)
    (ih : AgreeBelow sem ir mid' entry r w.length) :
    PathAgree sem ir mid' entry r (envAt mid phis r b []) w b [] (ir.blocks b)
      (enterBlock sem ir (runPath sem ir w) b) (enterBlock sem mid' (runPath sem mid' w) b) := by
  have hb : Reachable (cfgEdge ir) entry b := ⟨_, hw⟩
  have hσ : ∀ j, (enterBlock sem ir (runPath sem ir w) b).results j =
      (runPath sem ir w).results j := fun j =>
    enterBlock_results fun hj => h.free b hb j hj.1 hj.2
  obtain ⟨-, ⟨rfl, rfl⟩ | ⟨x, hx, hE⟩⟩ := walk_append_singleton.mp hw
  · -- the first block of the path
    exact ⟨rfl, fun j hj => absurd hj not_computedBefore_entry,
      fun a _ hon => absurd hon not_assignedOn_nil⟩
  · obtain ⟨w', rfl⟩ := hx.last
    have hreach : Reachable (cfgEdge ir) entry x := ⟨_, hx⟩
    have hbefore := ih w' x (by simp) hx
    refine ⟨hbefore.trace, fun j hj => ?_, fun a hlive hon => ?_⟩
    · rw [hσ]
      obtain ⟨y, hy, hjy⟩ : ∃ y, StrictlyDominates (cfgEdge ir) entry y b ∧ j ∈ ir.blocks y :=
        hj.2.resolve_left List.not_mem_nil
      have hv := h.value_available (hy.2.reachable hb) (List.append_nil _).symm hjy hj.1
      rw [valueAt_enterBlock (h.kept_below hb hy hv)]
      exact hbefore.results j (hj.before hE)
    · by_cases hphi : HasPhi phis b a
      · have hblock : (runPath sem mid' (w' ++ [x])).block = some x := by
          rw [runPath_concat]
          exact stateAt_block
        exact h.regs_phi hreach hE hphi hblock (hbefore.regs a (.edge hE hlive) hon.before)
      · exact h.regs_idom hphis hw ih hphi hlive (hon.resolve_right (by simp))

/-- **The two functions agree along every path**. -/
theorem RenamedFilling.pathAgree (h : RenamedFilling ir entry phis doms r done pushed mid mid')
    (hphis : PhisSuffice ir entry phis) (hassigned : LoadsAssigned ir entry)
    (hw : Walk (cfgEdge ir) entry (w ++ [b]) b) (hblock : ir.blocks b = pre ++ post) :
    PathAgree sem ir mid' entry r (envAt mid phis r b pre) w b pre post (stateAt sem ir w b pre)
      (stateAt sem mid' w b (remaining ir pre)) := by
  refine position_induction (P := fun w b pre post =>
    PathAgree sem ir mid' entry r (envAt mid phis r b pre) w b pre post (stateAt sem ir w b pre)
      (stateAt sem mid' w b (remaining ir pre))) (fun w b hw ih => ?_)
    (fun w b pre i post hw hsplit hagree => ?_) hw hblock
  · refine h.agree_start hphis hw fun w₁ d hlen hw₁ => ?_
    have hd : Reachable (cfgEdge ir) entry d := ⟨_, hw₁⟩
    rw [runPath_concat, h.runPath_eq hd, h.outEnv_eq hd]
    exact ih w₁ d hlen hw₁
  · rw [stateAt_concat, remaining_concat]
    cases hla : (ir.insts i).type.isLoadAssign with
    | false =>
        rw [if_neg Bool.false_ne_true, stateAt_concat]
        exact h.agree_other ⟨_, hw⟩ hsplit hla hagree
    | true =>
        rw [if_pos rfl, List.append_nil]
        rcases isLoadAssign_iff.mp hla with ⟨a, ha⟩ | ⟨a, ha⟩
        · exact h.agree_load hassigned hw hsplit ha hagree
        · exact h.agree_assign ⟨_, hw⟩ hsplit ha hagree

/-- **Operands have the same values along every path.** -/
theorem RenamedFilling.trace_eq (h : RenamedFilling ir entry phis doms r done pushed mid mid')
    (hphis : PhisSuffice ir entry phis) (hassigned : LoadsAssigned ir entry)
    (hw : Walk (cfgEdge ir) entry w b) :
    (runPath sem mid' w).trace = (runPath sem ir w).trace := by
  obtain ⟨w, rfl⟩ := hw.last
  rw [h.runPath_eq ⟨_, hw⟩, runPath_concat]
  exact (h.pathAgree hphis hassigned hw (List.append_nil _).symm).trace

/-- **A load stands for the value that was assigned last.** -/
theorem RenamedFilling.load_eq (h : RenamedFilling ir entry phis doms r done pushed mid mid')
    (hphis : PhisSuffice ir entry phis) (hassigned : LoadsAssigned ir entry)
    (hw : Walk (cfgEdge ir) entry (w ++ [b]) b) (hblock : ir.blocks b = pre ++ i :: post)
    (htype : (ir.insts i).type = .loadVar a) :
    valueAt sem mid' (stateAt sem mid' w b (remaining ir pre)).results (r.value i) =
      (stateAt sem ir w b pre).regs a := by
  have hagree : PathAgree sem ir mid' entry r (envAt mid phis r b pre) w b pre (i :: post)
      (stateAt sem ir w b pre) (stateAt sem mid' w b (remaining ir pre)) :=
    h.pathAgree hphis hassigned hw hblock
  obtain ⟨v, henv, hval⟩ := hagree.regs a (.load htype) (hassigned w b hw pre i post a hblock htype)
  rw [h.env_load ⟨_, hw⟩ hblock htype] at henv
  rw [Option.some.inj henv, hval]

end Agree

/-! ## Defined values -/

/-- Binary instructions have their two operands. -/
def BinaryOperands (ir : Ir) (entry : ℕ) : Prop :=
  ∀ b, Reachable (cfgEdge ir) entry b → ∀ i ∈ ir.blocks b, ∀ op,
    (ir.insts i).type = .binary op → ∃ l r, (ir.insts i).uses = [some l, some r]

/-- What is computed or assigned before a position has a value. -/
structure PathDefined {V : Type} (ir : Ir) (entry : ℕ) (w : List ℕ) (b : ℕ) (pre : List ℕ)
    (σ : PathState V) : Prop where
  results : ∀ j, ComputedBefore ir entry b pre j → σ.results j ≠ none
  regs : ∀ a, AssignedOn ir w pre a → σ.regs a ≠ none

section Defined

variable {V : Type} {sem : ValueSemantics V} {ir : Ir} {entry : ℕ} {a b i k : ℕ}
  {pre post w : List ℕ} {v : Value} {σ : PathState V}

/-- An operand that is no block has a value. -/
theorem PathDefined.valueAt_ne_none (h : PathDefined ir entry w b pre σ) (hheap : HeapOk ir)
    (hform : SsaFunction ir entry) (hfree : PhiFree ir entry)
    (hb : Reachable (cfgEdge ir) entry b) (hblock : ir.blocks b = pre ++ i :: post)
    (hop : ir.operand ⟨i, k⟩ = some v) (hv : ∀ x, v ≠ .block x) :
    valueAt sem ir σ.results v ≠ none := by
  have hi : i ∈ ir.blocks b := mem_of_split hblock
  cases hform.operand b hb i hi (hfree b hb i hi) k v hop with
  | const c => exact Option.some_ne_none _
  | block x hj => exact absurd rfl (hv x)
  | @inst j hresult hdef =>
      refine h.results j ⟨hresult, ?_⟩
      rcases hdef with ⟨pre', post', hblock', hj⟩ | hx
      · obtain ⟨rfl, rfl⟩ := split_unique (hheap.nodup b) hblock hblock'
        exact .inl hj
      · exact .inr hx

theorem PathDefined.operandAt_ne_none (h : PathDefined ir entry w b pre σ) (hheap : HeapOk ir)
    (hform : SsaFunction ir entry) (hfree : PhiFree ir entry)
    (hb : Reachable (cfgEdge ir) entry b) (hblock : ir.blocks b = pre ++ i :: post)
    (hjump : (ir.insts i).type.isJump = false) (hop : ir.operand ⟨i, k⟩ = some v) :
    operandAt sem ir σ.results i k ≠ none := by
  have hval : operandAt sem ir σ.results i k = valueAt sem ir σ.results v := by
    unfold operandAt
    rw [hop]
    rfl
  rw [hval]
  refine h.valueAt_ne_none hheap hform hfree hb hblock hop ?_
  rintro x rfl
  have hi : i ∈ ir.blocks b := mem_of_split hblock
  cases hform.operand b hb i hi (hfree b hb i hi) k _ hop with
  | block x hj =>
      rw [hjump] at hj
      cases hj

/-- **One instruction.** -/
theorem PathDefined.step (h : PathDefined ir entry w b pre σ) (hheap : HeapOk ir)
    (hform : SsaFunction ir entry) (hfree : PhiFree ir entry) (hbin : BinaryOperands ir entry)
    (hassigned : LoadsAssigned ir entry) (hw : Walk (cfgEdge ir) entry (w ++ [b]) b)
    (hblock : ir.blocks b = pre ++ i :: post) :
    PathDefined ir entry w b (pre ++ [i]) (execInst sem ir σ i) := by
  have hb : Reachable (cfgEdge ir) entry b := ⟨_, hw⟩
  have hi : i ∈ ir.blocks b := mem_of_split hblock
  have hslot : ∀ k v, (ir.insts i).uses[k]? = some (some v) → ir.operand ⟨i, k⟩ = some v := by
    intro k v hk
    unfold Ir.operand
    dsimp only
    rw [hk]
    rfl
  -- what `i` does not compute or assign
  have hother : ∀ j, j ≠ i → ComputedBefore ir entry b (pre ++ [i]) j →
      (execInst sem ir σ i).results j ≠ none := by
    intro j hji hj
    rw [execInst_results hji]
    exact h.results j (hj.concat hji)
  have hregs : ∀ a, (ir.insts i).type ≠ .assignVar a → AssignedOn ir w (pre ++ [i]) a →
      (execInst sem ir σ i).regs a ≠ none := by
    intro a ha hon
    rw [execInst_regs ha]
    exact h.regs a (hon.concat ha)
  refine ⟨fun j hj => ?_, fun a hon => ?_⟩
  · by_cases hji : j = i
    · subst hji
      have hresult := hj.1
      cases htype : (ir.insts j).type with
      | loadVar a =>
          have hexec : (execInst sem ir σ j).results j = σ.regs a := by
            unfold execInst
            rw [htype]
            exact Function.update_self _ _ _
          rw [hexec]
          exact h.regs a (hassigned w b hw pre j post a hblock htype)
      | binary op =>
          obtain ⟨l, r, huses⟩ := hbin b hb j hi op htype
          have hjump : (ir.insts j).type.isJump = false := by
            rw [htype]
            rfl
          have hl : operandAt sem ir σ.results j 0 ≠ none :=
            h.operandAt_ne_none hheap hform hfree hb hblock hjump (hslot 0 l (by rw [huses]; rfl))
          have hr : operandAt sem ir σ.results j 1 ≠ none :=
            h.operandAt_ne_none hheap hform hfree hb hblock hjump (hslot 1 r (by rw [huses]; rfl))
          obtain ⟨x, hx⟩ := Option.ne_none_iff_exists'.mp hl
          obtain ⟨y, hy⟩ := Option.ne_none_iff_exists'.mp hr
          have hexec : (execInst sem ir σ j).results j = some (sem.binary op x y) := by
            unfold execInst
            rw [htype]
            dsimp only
            rw [Function.update_self, hx, hy]
            rfl
          rw [hexec]
          exact Option.some_ne_none _
      | phi => exact absurd htype (hfree b hb j hi)
      | _ =>
          rw [htype] at hresult
          cases hresult
    · exact hother j hji hj
  · by_cases ha : (ir.insts i).type = .assignVar a
    · obtain ⟨v, huses⟩ := hform.assign b hb i hi a ha
      have hexec : (execInst sem ir σ i).regs a = operandAt sem ir σ.results i 0 := by
        unfold execInst
        rw [ha]
        exact Function.update_self _ _ _
      rw [hexec]
      exact h.operandAt_ne_none hheap hform hfree hb hblock (by rw [ha]; rfl)
        (hslot 0 v (by rw [huses]; rfl))
    · exact hregs a ha hon

/-- **Control comes to a block.** -/
theorem pathDefined_start (hfree : PhiFree ir entry)
    (hw : Walk (cfgEdge ir) entry (w ++ [b]) b)
    (ih : ∀ w' x, w'.length < w.length → Walk (cfgEdge ir) entry (w' ++ [x]) x →
      PathDefined ir entry w' x (ir.blocks x) (stateAt sem ir w' x (ir.blocks x))) :
    PathDefined ir entry w b [] (enterBlock sem ir (runPath sem ir w) b) := by
  obtain ⟨-, ⟨rfl, rfl⟩ | ⟨x, hx, hE⟩⟩ := walk_append_singleton.mp hw
  · exact ⟨fun j hj => absurd hj not_computedBefore_entry,
      fun a hon => absurd hon not_assignedOn_nil⟩
  · obtain ⟨w', rfl⟩ := hx.last
    have hbefore := ih w' x (by simp) hx
    rw [← runPath_concat] at hbefore
    refine ⟨fun j hj => ?_, fun a hon => hbefore.regs a hon.before⟩
    rw [enterBlock_results fun hjb => hfree b ⟨_, hw⟩ j hjb.1 hjb.2]
    exact hbefore.results j (hj.before hE)

/-- **Along every path values are defined.** -/
theorem pathDefined (hheap : HeapOk ir) (hform : SsaFunction ir entry) (hfree : PhiFree ir entry)
    (hbin : BinaryOperands ir entry) (hassigned : LoadsAssigned ir entry)
    (hw : Walk (cfgEdge ir) entry (w ++ [b]) b) (hblock : ir.blocks b = pre ++ post) :
    PathDefined ir entry w b pre (stateAt sem ir w b pre) := by
  refine position_induction (P := fun w b pre _ =>
    PathDefined ir entry w b pre (stateAt sem ir w b pre))
    (fun w b hw ih => pathDefined_start hfree hw ih) (fun w b pre i post hw hsplit h => ?_) hw hblock
  rw [stateAt_concat]
  exact h.step hheap hform hfree hbin hassigned hw hsplit

end Defined
