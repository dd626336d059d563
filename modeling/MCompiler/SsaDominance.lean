/-
# Dominance after the conversion

`Available` : a value can be used at a position: it is a constant, or a result that is defined
before.  What the stacks hold is available where it is read (`BlockAvailable`), so that
operands are defined before they are used in the converted function, too
(`ssaConvert_dominance`).
-/
import MCompiler.SsaFrame

open FlowGraph

/-- The value can be used in the block `b` behind the instructions `pre` and its phis. -/
def Available (ir : Ir) (entry : ℕ) (phis : ℕ → List PhiInfo) (b : ℕ) (pre : List ℕ) :
    Value → Prop
  | .const _ => True
  | .block _ => False
  | .inst j => ((ir.insts j).type.hasResult = true ∧ (ir.insts j).type.isLoadAssign = false) ∧
      (j ∈ pre ∨ (∃ p ∈ phis b, p.phiInst = j) ∨
        ∃ x, StrictlyDominates (cfgEdge ir) entry x b ∧ j ∈ ir.blocks x)

/-- What is used in the block `b` is available. -/
structure BlockAvailable (ir : Ir) (entry : ℕ) (phis : ℕ → List PhiInfo) (r : Renaming)
    (b : ℕ) : Prop where
  env : ∀ pre post, ir.blocks b = pre ++ post → ∀ a v,
    blockEnv ir r.value (phiEnv (phis b) (r.inEnv b)) pre a = some v →
      Available ir entry phis b pre v
  load : ∀ pre i post a, ir.blocks b = pre ++ i :: post → (ir.insts i).type = .loadVar a →
    Available ir entry phis b pre (r.value i)

section Available

variable {ir : Ir} {entry : ℕ} {phis : ℕ → List PhiInfo} {doms : Dominators} {r : Renaming}
  {done : List ℕ} {pushed : List PhiOperand} {ir' : Ir} {b i : ℕ} {pre post : List ℕ} {v : Value}

theorem Available.mono (h : Available ir entry phis b pre v) {pre' : List ℕ} (hsub : pre ⊆ pre') :
    Available ir entry phis b pre' v := by
  cases v with
  | const c => trivial
  | block x => exact h
  | inst j => exact ⟨h.1, h.2.imp_left (hsub ·)⟩

/-- Where it is available, a result is defined in a dominator. -/
theorem Available.exists_dominator (hinput : RenameInput ir entry phis doms)
    (hb : Reachable (cfgEdge ir) entry b) (hpre : pre ⊆ ir.blocks b) {j : ℕ}
    (h : Available ir entry phis b pre (.inst j)) :
    ∃ x, Dominates (cfgEdge ir) entry x b ∧ j ∈ ir.blocks x := by
  rcases h.2 with hj | ⟨p, hp, rfl⟩ | ⟨x, hx, hj⟩
  · exact ⟨b, .refl b, hpre hj⟩
  · exact ⟨b, .refl b, (hinput.phi b hb p hp).2.1⟩
  · exact ⟨x, hx.2, hj⟩

/-- What is available in a block is available below it. -/
theorem Available.below (hinput : RenameInput ir entry phis doms) {d : ℕ}
    (hb : Reachable (cfgEdge ir) entry b) (hd : StrictlyDominates (cfgEdge ir) entry d b)
    (hpre : pre ⊆ ir.blocks d) (h : Available ir entry phis d pre v) {pre' : List ℕ} :
    Available ir entry phis b pre' v := by
  cases v with
  | const c => trivial
  | block x => exact h
  | inst j =>
      obtain ⟨x, hx, hj⟩ := h.exists_dominator hinput (hd.2.reachable hb) hpre
      exact ⟨h.1, .inr (.inr ⟨x, hd.trans hb hx, hj⟩)⟩

/-- **Operands are available** if loads in the blocks above and earlier in the block are. -/
theorem Renamed.operand_available (h : Renamed ir entry phis (Reachable (cfgEdge ir) entry) r done
      pushed ir') (hinput : RenameInput ir entry phis doms)
    (hb : Reachable (cfgEdge ir) entry b) (hblock : ir.blocks b = pre ++ i :: post)
    (habove : ∀ x, StrictlyDominates (cfgEdge ir) entry x b → BlockAvailable ir entry phis r x)
    (hearlier : ∀ p j q a, pre = p ++ j :: q → (ir.insts j).type = .loadVar a →
      Available ir entry phis b p (r.value j))
    (hop : OperandOk ir entry b i v) (hv : ∀ x, v ≠ .block x) :
    Available ir entry phis b pre (sub r.value v) := by
  cases hop with
  | const c => trivial
  | block x hj => exact absurd rfl (hv x)
  | @inst j hresult hdef =>
      show Available ir entry phis b pre (r.value j)
      by_cases hload : ∃ a, (ir.insts j).type = .loadVar a
      · obtain ⟨a, ha⟩ := hload
        rcases hdef with ⟨pre', post', hblock', hj⟩ | ⟨x, hx, hj⟩
        · obtain ⟨rfl, rfl⟩ := split_unique (hinput.heap.nodup b) hblock' hblock
          obtain ⟨p, q, rfl⟩ := List.append_of_mem hj
          exact (hearlier p j q a rfl ha).mono (List.subset_append_left _ _)
        · obtain ⟨p, q, hsplit⟩ := List.append_of_mem hj
          refine ((habove x hx).load p j q a hsplit ha).below hinput hb hx ?_
          rw [hsplit]
          exact List.subset_append_left _ _
      · have hval : r.value j = .inst j := h.value_eq fun a ha => hload ⟨a, ha⟩
        rw [hval]
        have hla : (ir.insts j).type.isLoadAssign = false := by
          cases htype : (ir.insts j).type with
          | loadVar a => exact absurd ⟨a, htype⟩ hload
          | assignVar a =>
              rw [htype] at hresult
              cases hresult
          | _ => rfl
        refine ⟨⟨hresult, hla⟩, ?_⟩
        rcases hdef with ⟨pre', post', hblock', hj⟩ | hx
        · obtain ⟨rfl, rfl⟩ := split_unique (hinput.heap.nodup b) hblock' hblock
          exact .inl hj
        · exact .inr (.inr hx)

/-- What the registers hold at the start of a block, phis included. -/
theorem Renamed.phiEnv_available (h : Renamed ir entry phis (Reachable (cfgEdge ir) entry) r done
      pushed ir') (hinput : RenameInput ir entry phis doms)
    (hb : Reachable (cfgEdge ir) entry b)
    (habove : ∀ x, StrictlyDominates (cfgEdge ir) entry x b → BlockAvailable ir entry phis r x)
    {a : ℕ} (hv : phiEnv (phis b) (r.inEnv b) a = some v) :
    Available ir entry phis b [] v := by
  rcases phiEnv_cases (phis b) (r.inEnv b) a with ⟨heq, -⟩ | ⟨p, hp, -, heq⟩
  · rw [heq] at hv
    by_cases hentry : b = entry
    · rw [(h.blocks b hb).atEntry hentry] at hv
      cases hv
    · obtain ⟨d, -, hidom⟩ := hinput.doms.idom b hb hentry
      have hd := hidom.strict.2.reachable hb
      rw [(h.blocks b hb).idom d hidom, (h.blocks d hd).out] at hv
      exact ((habove d hidom.strict).env _ [] (List.append_nil _).symm a v hv).below hinput hb
        hidom.strict (List.Subset.refl _)
  · rw [heq] at hv
    obtain rfl := Option.some.inj hv
    refine ⟨?_, .inr (.inl ⟨p, hp, rfl⟩)⟩
    rw [(hinput.phi b hb p hp).2.2.1]
    exact ⟨rfl, rfl⟩

/-- **One block**, after the blocks above it. -/
theorem Renamed.blockAvailable_step (h : Renamed ir entry phis (Reachable (cfgEdge ir) entry) r done
      pushed ir') (hinput : RenameInput ir entry phis doms)
    (hb : Reachable (cfgEdge ir) entry b)
    (habove : ∀ x, StrictlyDominates (cfgEdge ir) entry x b → BlockAvailable ir entry phis r x) :
    BlockAvailable ir entry phis r b := by
  -- along the block, from its start
  have hupTo : ∀ pre post, ir.blocks b = pre ++ post →
      (∀ a v, blockEnv ir r.value (phiEnv (phis b) (r.inEnv b)) pre a = some v →
        Available ir entry phis b pre v) ∧
      ∀ p j q a, pre = p ++ j :: q → (ir.insts j).type = .loadVar a →
        Available ir entry phis b p (r.value j) := by
    intro pre
    induction pre using List.reverseRecOn with
    | nil =>
        exact fun post _ => ⟨fun a v hv => h.phiEnv_available hinput hb habove hv,
          fun p j q a hsplit => absurd hsplit (by simp)⟩
    | append_singleton pre i ih =>
        intro post hblock
        have hblock' : ir.blocks b = pre ++ i :: post := by
          rw [hblock, List.append_assoc]
          rfl
        obtain ⟨henv, hearlier⟩ := ih (i :: post) hblock'
        have hib : i ∈ ir.blocks b := by
          rw [hblock']
          exact List.mem_append_right _ List.mem_cons_self
        constructor
        · intro a v hv
          rw [blockEnv_concat] at hv
          by_cases hassign : ∃ a', (ir.insts i).type = .assignVar a'
          · obtain ⟨a', ha'⟩ := hassign
            obtain ⟨w, hw, hok⟩ := hinput.assign_operand hb hib ha'
            rw [instEnv_assign ha' hw] at hv
            by_cases haa : a = a'
            · rw [haa, Function.update_self] at hv
              obtain rfl := Option.some.inj hv
              have hnb : ∀ x, w ≠ .block x := by
                rintro x rfl
                cases hok with
                | block _ hjump =>
                    rw [ha'] at hjump
                    cases hjump
              exact (h.operand_available hinput hb hblock' habove hearlier hok hnb).mono
                (List.subset_append_left _ _)
            · rw [Function.update_of_ne haa] at hv
              exact (henv a v hv).mono (List.subset_append_left _ _)
          · rw [instEnv_other fun a' ha' => hassign ⟨a', ha'⟩] at hv
            exact (henv a v hv).mono (List.subset_append_left _ _)
        · intro p j q a hsplit hload
          rcases split_concat hsplit with ⟨-, rfl, rfl⟩ | ⟨q', hpre⟩
          · exact henv a _ ((h.blocks b hb).load p j post a hblock' hload)
          · exact hearlier p j q' a hpre hload
  refine ⟨fun pre post hblock => (hupTo pre post hblock).1, fun pre i post a hblock hload => ?_⟩
  have hblock' : ir.blocks b = (pre ++ [i]) ++ post := by
    rw [hblock, List.append_assoc]
    rfl
  exact (hupTo (pre ++ [i]) post hblock').2 pre i [] a rfl hload

/-- **Every block.** -/
theorem Renamed.blockAvailable (h : Renamed ir entry phis (Reachable (cfgEdge ir) entry) r done
      pushed ir') (hinput : RenameInput ir entry phis doms)
    (hb : Reachable (cfgEdge ir) entry b) : BlockAvailable ir entry phis r b := by
  induction b, hb using Reachable.dominator_induction with
  | step b hb ih => exact h.blockAvailable_step hinput hb ih

end Available

/-! ## The converted function -/

/-- The pairs of a block and a value that the operands of a phi are. -/
def phiPairs : List (Option Value) → List (Option Value × Option Value)
  | block :: value :: uses => (block, value) :: phiPairs uses
  | _ => []

theorem mem_phiPairs_phiUses {pushed : List PhiOperand} {phi : ℕ}
    {e : Option Value × Option Value} : e ∈ phiPairs (phiUses pushed phi) ↔
      ∃ o ∈ pushed, o.phi = phi ∧ e = (some (.block o.block), some o.value) := by
  induction pushed with
  | nil => simp [phiUses, phiPairs]
  | cons o pushed ih =>
      have hcons : phiUses (o :: pushed) phi =
          (if o.phi = phi then [some (.block o.block), some o.value] else []) ++
            phiUses pushed phi := rfl
      rw [hcons, List.exists_mem_cons_iff, ← ih]
      by_cases ho : o.phi = phi
      · rw [if_pos ho]
        show e ∈ (some (.block o.block), some o.value) :: phiPairs (phiUses pushed phi) ↔ _
        rw [List.mem_cons]
        simp [ho]
      · rw [if_neg ho, List.nil_append]
        simp [ho]

/-- A constant, or a result of an instruction of a dominator. -/
def DefinedAbove (ir : Ir) (entry b : ℕ) : Value → Prop
  | .const _ => True
  | .block _ => False
  | .inst j => (ir.insts j).type.hasResult = true ∧
      ∃ x, Dominates (cfgEdge ir) entry x b ∧ j ∈ ir.blocks x

/-- **Results are defined before they are used**; the value of a phi for a block is defined
above the end of this block. -/
structure DefinedBeforeUse (ir : Ir) (entry : ℕ) : Prop where
  operand : ∀ b, Reachable (cfgEdge ir) entry b → ∀ i ∈ ir.blocks b, (ir.insts i).type ≠ .phi →
    ∀ k v, ir.operand ⟨i, k⟩ = some v → OperandOk ir entry b i v
  phi : ∀ b, Reachable (cfgEdge ir) entry b → ∀ i ∈ ir.blocks b, (ir.insts i).type = .phi →
    ∀ e ∈ phiPairs (ir.insts i).uses, ∃ p v, e = (some (.block p), some v) ∧
      DefinedAbove ir entry p v

section Converted

variable {ir : Ir} {entry : ℕ} {phis : ℕ → List PhiInfo} {r : Renaming} {done : List ℕ}
  {pushed : List PhiOperand} {mid mid' ir' : Ir} {b i : ℕ}

/-- **The control flow graph stays.** -/
theorem Converted.cfgEdge_iff (h : Converted ir entry phis r done pushed mid mid' ir')
    (hheap : HeapOk ir) (hb : Reachable (cfgEdge ir) entry b) (x : ℕ) :
    cfgEdge ir b x ↔ cfgEdge ir' b x := by
  obtain ⟨doms, hinput⟩ := h.input
  have hbmid := (h.reachable_iff hheap).mpr hb
  have hsucc : x ∈ blockSuccessors mid' b ↔ x ∈ blockSuccessors mid b := by
    refine h.renamed.rewritten.successors_iff hinput.form hbmid h.renamed.value_ne_block
      (fun j hj => h.phiUses_eq_nil hj) fun i hi => ?_
    rw [h.renamed.mem_done]
    constructor
    · rintro ⟨c, -, hic⟩
      exact (mem_loadAssigns.mp hic).2
    · exact fun hla => ⟨b, hbmid, mem_loadAssigns.mpr ⟨hi, hla⟩⟩
  have hlast : blockSuccessors ir' b = blockSuccessors mid' b := by
    obtain ⟨l, hperm, hmid, hir'⟩ := h.blocks_eq hheap hb
    have hphi : ∀ i ∈ l, (mid'.insts i).type = .phi := by
      intro i hi
      obtain ⟨p, hp, rfl⟩ := List.mem_map.mp (hperm.mem_iff.mp hi)
      rw [h.renamed.rewritten.type]
      exact (h.filled.phi b p hp).2.2.1
    have hnil : ∀ (ir₀ : Ir), (∀ i ∈ ir₀.blocks b, (ir₀.insts i).type = .phi) →
        blockSuccessors ir₀ b = [] := by
      intro ir₀ hall
      unfold blockSuccessors blockLastInstruction
      cases hget : (ir₀.blocks b).getLast? with
      | none => rfl
      | some i =>
          dsimp only
          rw [hall i (List.mem_of_getLast? hget)]
    generalize hrest : (ir.blocks b).filter (fun i => ¬ (ir.insts i).type.isLoadAssign) = rest at *
    rcases List.eq_nil_or_concat rest with rfl | ⟨rest', i, rfl⟩
    · rw [List.append_nil] at hmid hir'
      rw [hnil mid' (by rw [hmid]; exact hphi), hnil ir' (by
        rw [hir', h.only.insts]
        exact fun i hi => hphi i (List.mem_of_mem_filter hi))]
    · have hconcat : ∀ l : List ℕ, (l ++ [i]).getLast? = some i := fun l => by
        rw [List.getLast?_append, List.getLast?_singleton]
        rfl
      rw [List.concat_eq_append, ← List.append_assoc] at hmid hir'
      unfold blockSuccessors blockLastInstruction
      rw [hmid, hir', hconcat, hconcat, h.only.insts]
  show x ∈ blockSuccessors ir b ↔ x ∈ blockSuccessors ir' b
  rw [hlast, hsucc, h.filled.blockSuccessors_eq hheap]

theorem Converted.dominates_iff (h : Converted ir entry phis r done pushed mid mid' ir')
    (hheap : HeapOk ir) {x : ℕ} :
    Dominates (cfgEdge mid) entry x b ↔ Dominates (cfgEdge ir') entry x b := by
  rw [h.filled.cfgEdge_eq hheap]
  exact dominates_congr fun a ha y => h.cfgEdge_iff hheap ha y

/-- What is used stays in its block. -/
theorem Converted.attached (h : Converted ir entry phis r done pushed mid mid' ir') {x j k : ℕ}
    (hj : j ∈ mid.blocks x) (hla : (mid.insts j).type.isLoadAssign = false)
    (hop : ir'.operand ⟨i, k⟩ = some (.inst j)) : j ∈ ir'.blocks x := by
  rw [h.blocks, h.renamed.rewritten.blocks]
  refine List.mem_filter.mpr ⟨List.mem_filter.mpr ⟨hj, ?_⟩, ?_⟩
  · rw [decide_eq_true_eq]
    intro hdone
    rw [h.isLoadAssign_of_done hdone] at hla
    cases hla
  · rw [decide_eq_true_eq]
    rintro ⟨-, hnil⟩
    have hmid' : mid'.operand ⟨i, k⟩ = some (.inst j) := by
      unfold Ir.operand at hop ⊢
      rwa [h.only.insts] at hop
    have hmem := (h.renamed.rewritten.uses.mem (.inst j) ⟨i, k⟩).mpr hmid'
    rw [hnil] at hmem
    cases hmem

/-- The instructions of a reachable block, behind its phis. -/
theorem Converted.mem_blocks_iff (h : Converted ir entry phis r done pushed mid mid' ir')
    (hi : i ∈ ir'.blocks b) : i ∈ mid.blocks b := by
  rw [h.blocks, h.renamed.rewritten.blocks] at hi
  exact List.mem_of_mem_filter (List.mem_of_mem_filter hi)

/-- The operands of an instruction that is no phi. -/
theorem Converted.operand_eq (h : Converted ir entry phis r done pushed mid mid' ir')
    (htype : (mid.insts i).type ≠ .phi) (k : ℕ) :
    ir'.operand ⟨i, k⟩ = (mid.operand ⟨i, k⟩).map (sub r.value) := by
  have hsame : ir'.operand ⟨i, k⟩ = mid'.operand ⟨i, k⟩ := by
    unfold Ir.operand
    rw [h.only.insts]
  rw [hsame, h.renamed.rewritten.operand (h.phiUses_eq_nil htype)]

/-- **Operands of the other instructions.** -/
theorem Converted.operandOk (h : Converted ir entry phis r done pushed mid mid' ir')
    (hheap : HeapOk ir) (hb : Reachable (cfgEdge ir) entry b) (hi : i ∈ ir'.blocks b)
    (htype : (ir'.insts i).type ≠ .phi) {k : ℕ} {v : Value} (hop : ir'.operand ⟨i, k⟩ = some v) :
    OperandOk ir' entry b i v := by
  obtain ⟨doms, hinput⟩ := h.input
  have hbmid := (h.reachable_iff hheap).mpr hb
  have himid := h.mem_blocks_iff hi
  rw [h.type] at htype
  have hiir := h.filled.not_phi himid htype
  have hmid' := h.operand_eq htype k
  rw [hmid'] at hop
  obtain ⟨w, hw, rfl⟩ := Option.map_eq_some_iff.mp hop
  have hok := hinput.form.operand b hbmid i himid htype k w hw
  cases w with
  | const c => exact .const c
  | block x =>
      cases hok with
      | block _ hjump =>
          refine .block x ?_
          rw [h.type]
          exact hjump
  | inst j =>
      obtain ⟨pre, post, hblock⟩ := List.append_of_mem himid
      have havail := h.renamed.blockAvailable hinput hbmid
      have hv : Available mid entry phis b pre (r.value j) :=
        h.renamed.operand_available hinput hbmid hblock
          (fun x hx => h.renamed.blockAvailable hinput (hx.2.reachable hbmid))
          (fun p j' q a hpre hload => havail.load p j' (q ++ i :: post) a
            (by rw [hblock, hpre, List.append_assoc]; rfl) hload) hok
          (fun x hx => by cases hx)
      show OperandOk ir' entry b i (r.value j)
      cases hval : r.value j with
      | const c => exact .const c
      | block x =>
          rw [hval] at hv
          exact hv.elim
      | inst j' =>
          rw [hval] at hv
          obtain ⟨⟨hresult, hla⟩, hdef⟩ := hv
          have hop' : ir'.operand ⟨i, k⟩ = some (.inst j') := by
            rw [hmid', hw]
            show some (r.value j) = _
            rw [hval]
          refine .inst (by rw [h.type]; exact hresult) ?_
          have hearlier : j' ∈ pre → DefinedBefore ir' entry b i j' := by
            intro hj'
            have hmem : j' ∈ ir'.blocks b := h.attached (by
              rw [hblock]
              exact List.mem_append_left _ hj') hla hop'
            obtain ⟨q, hblocks⟩ : ∃ q : ℕ → Bool, ir'.blocks b = (mid.blocks b).filter q :=
              ⟨_, by rw [h.blocks, h.renamed.rewritten.blocks, List.filter_filter]⟩
            rw [hblocks] at hi hmem
            have hsplit := hblocks
            rw [hblock, List.filter_append,
              List.filter_cons_of_pos (List.mem_filter.mp hi).2] at hsplit
            exact .inl ⟨_, _, hsplit, List.mem_filter.mpr ⟨hj', (List.mem_filter.mp hmem).2⟩⟩
          rcases hdef with hj' | ⟨p, hp, rfl⟩ | ⟨x, hx, hj'⟩
          · exact hearlier hj'
          · -- the phis of the block are at its top
            obtain ⟨l, pre', hperm, rfl, -⟩ := h.filled.split hiir hheap hblock
            exact hearlier (List.mem_append_left _
              (hperm.mem_iff.mpr (List.mem_map_of_mem hp)))
          · exact .inr ⟨x, ⟨hx.1, (h.dominates_iff hheap).mp hx.2⟩, h.attached hj' hla hop'⟩

/-- **Operands of phis.** -/
theorem Converted.definedAbove (h : Converted ir entry phis r done pushed mid mid' ir')
    (hheap : HeapOk ir) (hfree : PhiFree ir entry) (hb : Reachable (cfgEdge ir) entry b)
    (hi : i ∈ ir'.blocks b) (htype : (ir'.insts i).type = .phi) {e : Option Value × Option Value}
    (he : e ∈ phiPairs (ir'.insts i).uses) :
    ∃ p v, e = (some (.block p), some v) ∧ DefinedAbove ir' entry p v := by
  obtain ⟨doms, hinput⟩ := h.input
  have hbmid := (h.reachable_iff hheap).mpr hb
  have himid := h.mem_blocks_iff hi
  rw [h.type] at htype
  obtain ⟨p, hp, rfl⟩ : ∃ p ∈ phis b, p.phiInst = i := by
    rcases h.filled.mem_blocks.mp himid with hp | hiir
    · exact hp
    · rw [h.filled.insts_of_mem hheap hiir] at htype
      exact absurd htype (hfree b hb i hiir)
  have huses : (ir'.insts p.phiInst).uses = phiUses pushed p.phiInst := by
    rw [h.only.insts, h.renamed.rewritten.insts, (hinput.phi b hbmid p hp).2.2.2]
    rfl
  rw [huses] at he
  obtain ⟨o, ho, hophi, rfl⟩ := mem_phiPairs_phiUses.mp he
  refine ⟨o.block, o.value, rfl, ?_⟩
  obtain ⟨hreach, x, -, q, -, -, hout⟩ := (h.renamed.mem_pushed o).mp ho
  rw [(h.renamed.blocks _ hreach).out] at hout
  have hv := (h.renamed.blockAvailable hinput hreach).env _ [] (List.append_nil _).symm _ _ hout
  cases hval : o.value with
  | const c => trivial
  | block x =>
      rw [hval] at hv
      exact hv.elim
  | inst j =>
      rw [hval] at hv
      obtain ⟨x, hx, hj⟩ := hv.exists_dominator hinput hreach (List.Subset.refl _)
      have hslot : some (.inst j) ∈ (ir'.insts p.phiInst).uses := by
        rw [huses]
        exact some_mem_phiUses.mpr ⟨o, ho, hophi, .inr hval.symm⟩
      obtain ⟨k, hk⟩ := List.mem_iff_getElem?.mp hslot
      have hop : ir'.operand ⟨p.phiInst, k⟩ = some (.inst j) := by
        unfold Ir.operand
        dsimp only
        rw [hk]
        rfl
      exact ⟨by rw [h.type]; exact hv.1.1, x, (h.dominates_iff hheap).mp hx,
        h.attached hj hv.1.2 hop⟩

/-- **The converted function** defines results before they are used. -/
theorem Converted.definedBeforeUse (h : Converted ir entry phis r done pushed mid mid' ir')
    (hheap : HeapOk ir) (hfree : PhiFree ir entry) : DefinedBeforeUse ir' entry := by
  have hreach : ∀ {b}, Reachable (cfgEdge ir') entry b → Reachable (cfgEdge ir) entry b :=
    fun hb => (reachable_congr fun a ha y => h.cfgEdge_iff hheap ha y).mpr hb
  exact ⟨fun b hb i hi htype k v hop => h.operandOk hheap (hreach hb) hi htype hop,
    fun b hb i hi htype e he => h.definedAbove hheap hfree (hreach hb) hi htype he⟩

end Converted

/-- **Dominance after `ssa_convert`.**  The reachable blocks stay, and operands are defined
before they are used. -/
theorem ssaConvert_dominance (ir : Ir) (entry : ℕ) (doms : Dominators) (df : DomFrontiers)
    (hheap : HeapOk ir) (hdoms : CorrectDoms ir entry doms) (hform : SsaFunction ir entry)
    (hfree : PhiFree ir entry) (hload : LoadsDominated ir entry)
    (hdf : ∀ x, Reachable (cfgEdge ir) entry x → ∀ y ∈ domfrontiersGet df x,
      Reachable (cfgEdge ir) entry y) :
    ∃ bound, ∀ fuel, bound ≤ fuel → ∃ ir', ssaConvert doms df fuel ir entry = some ir' ∧
      (∀ b, Reachable (cfgEdge ir') entry b ↔ Reachable (cfgEdge ir) entry b) ∧
      DefinedBeforeUse ir' entry := by
  obtain ⟨bound, h⟩ := ssaConvert_converted hheap hdoms hform hdf
    fun _ _ phis _ _ _ => hload.supplied phis
  refine ⟨bound, fun fuel hfuel => ?_⟩
  obtain ⟨-, -, phis, s, r, done, pushed, mid', ir', -, -, -, -, hconvert, hconverted⟩ :=
    h fuel hfuel
  exact ⟨ir', hconvert,
    fun b => (reachable_congr fun a ha y => hconverted.cfgEdge_iff hheap ha y).symm,
    hconverted.definedBeforeUse hheap hfree⟩
