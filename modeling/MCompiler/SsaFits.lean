/-
# Functions that fit the buffers of the conversion

How far the buffers of `ssa_convert` are filled can be told from the function, its dominators and
its frontiers.

* `RenamingFits` : the buffers of `ssa_rename` for given phis.  A value stack has in a block the
  values that the dominators of the block assign and the phis that they hold
  (`ssaRenameStored_iff`), and a phi has a pair for each predecessor at whose end its register
  has a value (`pairsStored_renamed_iff`).
* `PlacingFits` : the buffers of the steps 1 and 2 (`placingStored_iff`).
* `ConversionFits` : all buffers of `ssa_convert` (`ssaConvertStored_iff`).
-/
import Mathlib.Data.Set.Card
import MCompiler.SsaEdges
import MCompiler.SsaPreservation
import MCompiler.SsaStackRoom

open FlowGraph

/-! ## What is stored -/

/-- The assigns of a register in the dominators of a block. -/
def assignsAbove (ir : Ir) (entry b a : ℕ) : Set ℕ :=
  {i | ∃ d, Dominates (cfgEdge ir) entry d b ∧ i ∈ ir.blocks d ∧ (ir.insts i).type = .assignVar a}

/-- The phis for a register in the dominators of a block. -/
def phisAbove (ir : Ir) (entry : ℕ) (phis : ℕ → List PhiInfo) (b a : ℕ) : Set PhiInfo :=
  {p | ∃ d, Dominates (cfgEdge ir) entry d b ∧ p ∈ phis d ∧ p.rId = a}

/-- The predecessors of a block at whose end a register has a value. -/
def pairBlocks (ir : Ir) (entry : ℕ) (phis : ℕ → List PhiInfo) (b a : ℕ) : Set ℕ :=
  {q | Reachable (cfgEdge ir) entry q ∧ b ∈ blockSuccessors ir q ∧
    ∃ x, Dominates (cfgEdge ir) entry x q ∧ Writes ir phis x a}

/-- **The function with these phis fits the buffers of `ssa_rename`.** -/
structure RenamingFits (ir : Ir) (entry : ℕ) (phis : ℕ → List PhiInfo) : Prop where
  loadAssigns : ∀ b, Reachable (cfgEdge ir) entry b → (loadAssigns ir (ir.blocks b)).length ≤ 250
  phiList : ∀ b, Reachable (cfgEdge ir) entry b → (phis b).length ≤ 250
  values : ∀ b, Reachable (cfgEdge ir) entry b → ∀ a,
    (assignsAbove ir entry b a).ncard + (phisAbove ir entry phis b a).ncard ≤ 250
  pairs : ∀ b, Reachable (cfgEdge ir) entry b → ∀ p ∈ phis b,
    (pairBlocks ir entry phis b p.rId).ncard ≤ 16

/-- The number of elements of a set that a list enumerates. -/
theorem ncard_eq_length {α : Type*} {l : List α} (hl : l.Nodup) {S : Set α}
    (hS : ∀ x, x ∈ S ↔ x ∈ l) : S.ncard = l.length := by
  classical
  have hset : S = (l.toFinset : Set α) := by
    ext x
    rw [hS, Finset.mem_coe, List.mem_toFinset]
  rw [hset, Set.ncard_coe_finset, List.toFinset_card_of_nodup hl]

/-! ## The dominator tree -/

section Tree

variable {ir : Ir} {entry : ℕ} {doms : Dominators} {b c n : ℕ} {l : List ℕ}

/-- **The way to a block** leads through its strict dominators. -/
theorem ChildPath.chain (hdoms : CorrectDoms ir entry doms) (h : ChildPath doms entry b l) :
    Reachable (cfgEdge ir) entry b ∧ (b :: l).Nodup ∧
      ∀ d, d ∈ b :: l ↔ Dominates (cfgEdge ir) entry d b := by
  induction h with
  | root =>
      refine ⟨.root, List.nodup_singleton _, fun d => ?_⟩
      rw [List.mem_singleton]
      constructor
      · rintro rfl
        exact .refl _
      · intro hd
        by_contra hne
        exact not_strictlyDominates_entry ⟨hne, hd⟩
  | @step b c l cs _ hcs hc ih =>
      obtain ⟨hb, hnodup, hmem⟩ := ih
      obtain ⟨cs', hcs', hchilds⟩ := hdoms.childs b hb
      obtain rfl := Option.some.inj (hcs.symm.trans hcs')
      obtain ⟨hreach, hidom⟩ := (hchilds c).mp hc
      refine ⟨hreach, List.nodup_cons.mpr ⟨fun hcl => ?_, hnodup⟩, fun d => ?_⟩
      · exact hidom.strict.1 (hidom.strict.2.antisymm hreach ((hmem c).mp hcl))
      · rw [List.mem_cons, hmem, hidom.dominates_iff]

/-- A number belongs to one block. -/
theorem CorrectDoms.block_eq (hdoms : CorrectDoms ir entry doms)
    (hb : doms.postorder[n]? = some b) (hc : Reachable (cfgEdge ir) entry c)
    (hnum : blockNumber doms c = some n) : c = b := by
  obtain ⟨m, hm, hnum'⟩ := hdoms.exists_number hc
  obtain rfl := Option.some.inj (hnum.symm.trans hnum')
  exact Option.some.inj (hm.symm.trans hb)

end Tree

/-! ## The value stacks -/

/-- The registers assigned among the loads and assigns. -/
theorem assignRegs_loadAssigns (ir : Ir) (l : List ℕ) :
    assignRegs ir (loadAssigns ir l) = assignRegs ir l := by
  unfold assignRegs loadAssigns
  rw [List.filterMap_filter]
  apply List.filterMap_congr
  intro i _
  cases (ir.insts i).type <;> rfl

/-- The assigns of a register in a list of instructions. -/
theorem countP_assignRegs (ir : Ir) (l : List ℕ) (a : ℕ) :
    (assignRegs ir l).countP (fun c => c = a) =
      (l.filter fun i => (ir.insts i).type = .assignVar a).length := by
  induction l with
  | nil => rfl
  | cons i l ih =>
      unfold assignRegs at ih ⊢
      rw [List.filterMap_cons, List.filter_cons]
      cases htype : (ir.insts i).type with
      | assignVar c =>
          by_cases hca : c = a
          · simp [hca, ih]
          · simp [hca, ih]
      | _ => simp [ih]

section Stacks

variable {ir mid : Ir} {entry : ℕ} {phis : ℕ → List PhiInfo} {doms : Dominators}
  {blockInfo : ℕ → BlockInfo} {vm : VariableMap} {b : ℕ} {l : List ℕ} {fuel : ℕ}
  {s : RenameState}

/-- The loads and assigns of a block with phis. -/
theorem Filled.loadAssigns_eq (h : Filled ir phis mid) (hheap : HeapOk ir) (b : ℕ) :
    loadAssigns mid (mid.blocks b) = loadAssigns ir (ir.blocks b) := by
  obtain ⟨l, hperm, hl⟩ := h.blocks b
  have hphi : loadAssigns mid l = [] := by
    apply List.filter_eq_nil_iff.mpr
    intro i hi
    obtain ⟨p, hp, rfl⟩ := List.mem_map.mp (hperm.mem_iff.mp hi)
    rw [(h.phi b p hp).2.2.1]
    exact Bool.false_ne_true
  rw [hl, loadAssigns_append, hphi, List.nil_append]
  apply List.filter_congr
  intro i hi
  rw [h.insts_of_mem hheap hi]

/-- **The pushes of a block**: those of its phis and assigns. -/
theorem blockPushes_eq (hfilled : Filled ir phis mid) (hheap : HeapOk ir)
    (hdoms : CorrectDoms ir entry doms) (hform : LoadAssignForm ir entry)
    (hreg : ∀ b, ∀ p ∈ phis b, IntReg p.rId)
    (hstart : RenameStart mid entry phis doms blockInfo vm)
    (hb : Reachable (cfgEdge ir) entry b) {a : ℕ} (ha : IntReg a) :
    blockPushes doms ⟨mid, blockInfo, vm⟩ (toInt a) b =
      ((ir.blocks b).filter fun i => (ir.insts i).type = .assignVar a).length +
        ((phis b).filter fun p => p.rId = a).length := by
  obtain ⟨n, hn, hnum⟩ := hdoms.exists_number hb
  obtain ⟨hphi, hla, -⟩ := hstart.info n b hn
  have hassigns : assignRegs mid (loadAssigns ir (ir.blocks b)) = assignRegs ir (ir.blocks b) := by
    rw [← assignRegs_loadAssigns ir]
    apply List.filterMap_congr
    intro i hi
    rw [hfilled.insts_of_mem hheap (List.mem_of_mem_filter hi)]
  unfold blockPushes
  rw [hnum]
  show List.countP _ (pushedRegs mid (blockInfo n)) = _
  unfold pushedRegs
  rw [hphi, hla, hfilled.loadAssigns_eq hheap, hassigns, List.countP_append, Nat.add_comm]
  -- the keys tell the registers apart
  congr 1
  · rw [← countP_assignRegs]
    apply List.countP_congr
    intro c hc
    obtain ⟨i, hi, hic⟩ := List.mem_filterMap.mp hc
    have hreg : IntReg c := by
      refine hform.reg b hb i hi c ?_
      split at hic
      · rename_i htype
        rw [htype, ← Option.some.inj hic]
        rfl
      · cases hic
    rw [decide_eq_true_iff, decide_eq_true_iff, toInt_reg_inj hreg ha]
  · rw [List.countP_map, List.countP_eq_length_filter]
    refine congrArg List.length (List.filter_congr fun p hp => ?_)
    rw [Function.comp_apply]
    exact decide_eq_decide.mpr (toInt_reg_inj (hreg b p hp) ha)

/-- **The assigns above a block** are on the way to it. -/
theorem ChildPath.ncard_assignsAbove (hl : ChildPath doms entry b l) (hheap : HeapOk ir)
    (hdoms : CorrectDoms ir entry doms) (a : ℕ) :
    (assignsAbove ir entry b a).ncard = ((b :: l).flatMap fun d =>
      (ir.blocks d).filter fun i => (ir.insts i).type = .assignVar a).length := by
  obtain ⟨-, hnodup, hmem⟩ := hl.chain hdoms
  refine ncard_eq_length (List.nodup_flatMap.mpr
    ⟨fun d _ => (hheap.nodup d).filter _, hnodup.imp fun hne => ?_⟩) fun i => ?_
  · intro i hi hi'
    exact hne (hheap.block_unique (List.mem_of_mem_filter hi) (List.mem_of_mem_filter hi'))
  · unfold assignsAbove
    simp only [List.mem_flatMap, List.mem_filter, decide_eq_true_eq, Set.mem_ofPred_eq, hmem]

/-- **The height of a stack** in a block. -/
theorem pathPushes_eq (hfilled : Filled ir phis mid) (hheap : HeapOk ir)
    (hdoms : CorrectDoms ir entry doms) (hform : LoadAssignForm ir entry)
    (hreg : ∀ b, ∀ p ∈ phis b, IntReg p.rId)
    (hstart : RenameStart mid entry phis doms blockInfo vm)
    (hl : ChildPath doms entry b l) {a : ℕ} (ha : IntReg a) :
    pathPushes doms ⟨mid, blockInfo, vm⟩ (toInt a) (b :: l) =
      (assignsAbove ir entry b a).ncard + (phisAbove ir entry phis b a).ncard := by
  obtain ⟨hb, hnodup, hmem⟩ := hl.chain hdoms
  have hassigns := hl.ncard_assignsAbove hheap hdoms a
  have hphis : (phisAbove ir entry phis b a).ncard = ((b :: l).flatMap fun d =>
      (phis d).filter fun p => p.rId = a).length := by
    refine ncard_eq_length (List.nodup_flatMap.mpr
      ⟨fun d _ => (List.Nodup.of_map _ (hfilled.nodup d)).filter _, hnodup.imp fun hne => ?_⟩)
      fun p => ?_
    · intro p hp hp'
      exact hne (hfilled.phi_unique (List.mem_of_mem_filter hp') (List.mem_of_mem_filter hp) rfl).1
    · unfold phisAbove
      simp only [List.mem_flatMap, List.mem_filter, decide_eq_true_eq, Set.mem_ofPred_eq, hmem]
  rw [hassigns, hphis, List.length_flatMap, List.length_flatMap, ← List.sum_map_add]
  unfold pathPushes
  congr 1
  apply List.map_congr_left
  intro d hd
  exact blockPushes_eq hfilled hheap hdoms hform hreg hstart (((hmem d).mp hd).reachable hb) ha

/-- The stacks are empty in the beginning. -/
theorem RenameStart.height (hstart : RenameStart mid entry phis doms blockInfo vm) (a : ℕ) :
    vm.height (toInt a) = 0 := by
  have htop : getLastValueUnsafe vm (reg32 a) = none := by
    have htops := congrFun hstart.tops (reg32 a)
    unfold VariableMap.tops at htops
    rwa [if_pos (intReg_reg32 a)] at htops
  unfold getLastValueUnsafe at htop
  rw [toInt_reg32] at htop
  unfold VariableMap.height
  cases hr : vm.regs (toInt a) with
  | none => rfl
  | some rInfo =>
      rw [hr, Option.bind_some, List.head?_eq_none_iff] at htop
      exact congrArg List.length htop

/-- The values that a way down pushes are stored. -/
theorem lowOn_iff (hfilled : Filled ir phis mid) (hheap : HeapOk ir)
    (hdoms : CorrectDoms ir entry doms) (hform : LoadAssignForm ir entry)
    (hreg : ∀ b, ∀ p ∈ phis b, IntReg p.rId)
    (hstart : RenameStart mid entry phis doms blockInfo vm)
    (hl : ChildPath doms entry b l) : LowOn doms ⟨mid, blockInfo, vm⟩ b l ↔
      ∀ a, (assignsAbove ir entry b a).ncard + (phisAbove ir entry phis b a).ncard ≤ 250 := by
  obtain ⟨hb, -, -⟩ := hl.chain hdoms
  have hheight := hstart.height
  constructor
  · intro hlow a
    by_cases ha : IntReg a
    · have hle := hlow a
      rwa [hheight, Nat.zero_add, pathPushes_eq hfilled hheap hdoms hform hreg hstart hl ha] at hle
    · -- there is no such register
      have hassigns : assignsAbove ir entry b a = ∅ := by
        refine Set.eq_empty_iff_forall_notMem.mpr fun i hi => ?_
        obtain ⟨d, hd, hid, htype⟩ := hi
        exact ha (hform.reg d (hd.reachable hb) i hid a (by rw [htype]; rfl))
      have hphis : phisAbove ir entry phis b a = ∅ := by
        refine Set.eq_empty_iff_forall_notMem.mpr fun p hp => ?_
        obtain ⟨d, -, hpd, rfl⟩ := hp
        exact ha (hreg d p hpd)
      rw [hassigns, hphis, Set.ncard_empty, Set.ncard_empty]
      exact Nat.zero_le 250
  · intro hall a
    have hle := hall (reg32 a)
    rw [← pathPushes_eq hfilled hheap hdoms hform hreg hstart hl (intReg_reg32 a),
      toInt_reg32] at hle
    rwa [hheight, Nat.zero_add]

/-- **Renaming stays within the value stacks** if and only if no register has more than 250
assigns and phis in the dominators of a block. -/
theorem ssaRenameStored_iff (hfilled : Filled ir phis mid) (hheap : HeapOk ir)
    (hdoms : CorrectDoms ir entry doms) (hform : SsaFunction ir entry)
    (hreg : ∀ b, ∀ p ∈ phis b, IntReg p.rId)
    (hstart : RenameStart mid entry phis doms blockInfo vm)
    (hrun : ssaRename doms fuel ⟨mid, blockInfo, vm⟩ entry = some s) :
    ssaRenameStored doms fuel ⟨mid, blockInfo, vm⟩ entry = some s ↔
      ∀ b, Reachable (cfgEdge ir) entry b → ∀ a,
        (assignsAbove ir entry b a).ncard + (phisAbove ir entry phis b a).ncard ≤ 250 := by
  have hla := hform.toLoadAssignForm
  have hlow : vm.Low := fun a => (hstart.height a).trans_le (Nat.zero_le 250)
  constructor
  · intro hstored b hb
    obtain ⟨n, hn, -⟩ := hdoms.exists_number hb
    -- every reachable block is renamed
    have hrenamed : (s.blockInfo n).isRenamed = true := by
      rcases ssaRename_renamed (hfilled.renameForm hheap hdoms hform hreg) hstart.info hstart.has
        hstart.tops (Nat.lt_succ_of_le (le_max_left doms.elementCount fuel)) with
        ⟨-, -, -, s', hmore, -, -, hinfo⟩ | ⟨hnone, -⟩
      · have hle := (le_max_right doms.elementCount fuel).trans (Nat.le_succ _)
        rw [ssaRename_mono hle hrun] at hmore
        obtain rfl := Option.some.inj hmore
        exact (hinfo n b hn).2
      · have hle := (le_max_right doms.elementCount fuel).trans (Nat.le_succ _)
        rw [ssaRename_mono hle hrun] at hnone
        cases hnone
    rcases low_of_ssaRenameStored fuel _ entry s hstored hlow n hrenamed with
      hold | ⟨c, l, hnum, hl, hcl⟩
    · rw [(hstart.info n b hn).2.2] at hold
      cases hold
    · obtain rfl := hdoms.block_eq hn (hl.chain hdoms).1 hnum
      exact (lowOn_iff hfilled hheap hdoms hla hreg hstart hl).mp hcl
  · intro hall
    exact ssaRenameStored_of_low fuel _ entry s hrun hlow fun c l hl =>
      (lowOn_iff hfilled hheap hdoms hla hreg hstart hl).mpr (hall c (hl.chain hdoms).1)

end Stacks

/-! ## The pairs of the phis -/

theorem length_phiUses (pushed : List PhiOperand) (phi : ℕ) :
    (phiUses pushed phi).length = 2 * (pushed.filter fun e => e.phi = phi).length := by
  induction pushed with
  | nil => rfl
  | cons e pushed ih =>
      have hcons : phiUses (e :: pushed) phi =
          (if e.phi = phi then [some (.block e.block), some e.value] else []) ++
            phiUses pushed phi := rfl
      rw [hcons, List.length_append, ih, List.filter_cons]
      by_cases he : e.phi = phi
      · rw [if_pos he, if_pos (decide_eq_true he), List.length_cons, List.length_cons,
          List.length_nil, List.length_cons]
        omega
      · rw [if_neg he, if_neg (by simpa using he), List.length_nil, Nat.zero_add]

section Pairs

variable {ir mid : Ir} {entry : ℕ} {phis : ℕ → List PhiInfo} {doms : Dominators}
  {r : Renaming} {done : List ℕ} {pushed : List PhiOperand} {s : RenameState} {b : ℕ}
  {p : PhiInfo}

/-- The number of pairs of a phi. -/
theorem Renamed.length_uses (h : Renamed mid entry phis (Reachable (cfgEdge mid) entry) r done
    pushed s.ir) (hinput : RenameForm mid entry phis doms) (hfilled : Filled ir phis mid)
    (hheap : HeapOk ir) (hp : p ∈ phis b) : (s.ir.insts p.phiInst).uses.length =
      2 * (pairBlocks ir entry phis b p.rId).ncard := by
  have hcfg := hfilled.cfgEdge_eq hheap
  have huses : (s.ir.insts p.phiInst).uses = phiUses pushed p.phiInst := by
    rw [h.rewritten.insts, hfilled.unused _ (hfilled.phi b p hp).1]
    rfl
  have hmem : ∀ {e : PhiOperand}, e ∈ pushed.filter (fun e => e.phi = p.phiInst) ↔
      e.phi = p.phiInst ∧ Reachable (cfgEdge mid) entry e.block ∧ b ∈ blockSuccessors mid e.block ∧
        r.outEnv e.block p.rId = some e.value := by
    rintro ⟨q, phi, v⟩
    rw [List.mem_filter, decide_eq_true_eq, and_comm]
    refine and_congr_right fun hphi => ?_
    dsimp only at hphi
    rw [hphi]
    exact h.mem_pushed_iff hfilled hp v
  rw [huses, length_phiUses, ← List.length_map PhiOperand.block]
  congr 1
  refine (ncard_eq_length (List.Nodup.map_on ?_ (h.rewritten.nodup.filter _)) fun q => ?_).symm
  · -- one pair for each block
    rintro ⟨q, phi, v⟩ he ⟨q', phi', v'⟩ he' hq
    obtain ⟨rfl, -, -, hv⟩ := hmem.mp he
    obtain ⟨rfl, -, -, hv'⟩ := hmem.mp he'
    dsimp only at hq hv hv'
    subst hq
    rw [Option.some.inj (hv.symm.trans hv')]
  · have hvalue : Reachable (cfgEdge mid) entry q → (r.outEnv q p.rId ≠ none ↔
        ∃ x, Dominates (cfgEdge ir) entry x q ∧ Writes ir phis x p.rId) := by
      intro hq
      rw [h.outEnv_ne_none hinput (fun x hx y hy => hy.reachable hx) hq hq p.rId, hcfg]
      exact exists_congr fun x => and_congr_right fun _ => hfilled.writes_iff hheap
    rw [List.mem_map]
    show Reachable (cfgEdge ir) entry q ∧ b ∈ blockSuccessors ir q ∧ _ ↔ _
    rw [← hcfg, ← hfilled.blockSuccessors_eq hheap]
    constructor
    · rintro ⟨hq, hb, hx⟩
      rw [hcfg] at hx
      obtain ⟨v, hv⟩ := Option.ne_none_iff_exists'.mp ((hvalue hq).mpr hx)
      exact ⟨⟨q, p.phiInst, v⟩, hmem.mpr ⟨rfl, hq, hb, hv⟩, rfl⟩
    · rintro ⟨e, he, rfl⟩
      obtain ⟨-, hq, hb, hv⟩ := hmem.mp he
      refine ⟨hq, hb, ?_⟩
      rw [hcfg]
      refine (hvalue hq).mp ?_
      rw [hv]
      exact Option.some_ne_none _

/-- **The pairs of the phis are stored** if and only if no phi has more than 16. -/
theorem pairsStored_renamed_iff (h : Renamed mid entry phis (Reachable (cfgEdge mid) entry) r done
    pushed s.ir) (hinput : RenameForm mid entry phis doms) (hfilled : Filled ir phis mid)
    (hheap : HeapOk ir) (hdoms : CorrectDoms ir entry doms)
    (hinfo : ∀ n b : ℕ, doms.postorder[n]? = some b → (s.blockInfo n).phiList = phis b) :
    PairsStored doms s ↔ ∀ b, Reachable (cfgEdge ir) entry b → ∀ p ∈ phis b,
      (pairBlocks ir entry phis b p.rId).ncard ≤ 16 := by
  have hpair : ∀ {b p}, p ∈ phis b → (PointersStored 128 (s.ir.insts p.phiInst).uses.length ↔
      (pairBlocks ir entry phis b p.rId).ncard ≤ 16) := by
    intro b p hp
    rw [pairsStored_iff, h.length_uses hinput hfilled hheap hp]
    omega
  constructor
  · intro hstored b hb p hp
    obtain ⟨n, hn⟩ := List.mem_iff_getElem?.mp ((hdoms.mem b).mpr hb)
    refine (hpair hp).mp (hstored n ?_ p ?_)
    · rw [hdoms.count]
      exact (List.getElem?_eq_some_iff.mp hn).1
    · rw [hinfo n b hn]
      exact hp
  · intro hall n hn p hp
    rw [hdoms.count] at hn
    have hget := List.getElem?_eq_getElem hn
    rw [hinfo n _ hget] at hp
    exact (hpair hp).mpr (hall _ ((hdoms.mem _).mp (List.getElem_mem hn)) p hp)

end Pairs

/-! ## Renaming -/

section Renaming

variable {ir mid : Ir} {entry : ℕ} {phis : ℕ → List PhiInfo} {doms : Dominators}
  {blockInfo : ℕ → BlockInfo} {vm : VariableMap} {fuel : ℕ} {s : RenameState}

/-- A property of the blocks that are listed. -/
theorem CorrectDoms.forall_number (hdoms : CorrectDoms ir entry doms) {P : ℕ → Prop}
    {Q : ℕ → Prop} (h : ∀ n b : ℕ, doms.postorder[n]? = some b → (P n ↔ Q b)) :
    (∀ n < doms.elementCount, P n) ↔ ∀ b, Reachable (cfgEdge ir) entry b → Q b := by
  constructor
  · intro hall b hb
    obtain ⟨n, hn⟩ := List.mem_iff_getElem?.mp ((hdoms.mem b).mpr hb)
    refine (h n b hn).mp (hall n ?_)
    rw [hdoms.count]
    exact (List.getElem?_eq_some_iff.mp hn).1
  · intro hall n hn
    rw [hdoms.count] at hn
    exact (h n _ (List.getElem?_eq_getElem hn)).mpr
      (hall _ ((hdoms.mem _).mp (List.getElem_mem hn)))

/-- What renaming from the entry has done. -/
theorem RenameStart.renamed (hfilled : Filled ir phis mid) (hheap : HeapOk ir)
    (hdoms : CorrectDoms ir entry doms) (hform : SsaFunction ir entry)
    (hreg : ∀ b, ∀ p ∈ phis b, IntReg p.rId)
    (hstart : RenameStart mid entry phis doms blockInfo vm)
    (hrun : ssaRename doms fuel ⟨mid, blockInfo, vm⟩ entry = some s) :
    ∃ r done pushed, Renamed mid entry phis (Reachable (cfgEdge mid) entry) r done pushed s.ir ∧
      ∀ n b : ℕ, doms.postorder[n]? = some b → (s.blockInfo n).phiList = phis b := by
  have hle := (le_max_right doms.elementCount fuel).trans (Nat.le_succ _)
  rcases ssaRename_renamed (hfilled.renameForm hheap hdoms hform hreg) hstart.info hstart.has
    hstart.tops (Nat.lt_succ_of_le (le_max_left doms.elementCount fuel)) with
    ⟨r, done, pushed, s', hmore, hrenamed, -, hinfo⟩ | ⟨hnone, -⟩
  · rw [ssaRename_mono hle hrun] at hmore
    obtain rfl := Option.some.inj hmore
    exact ⟨r, done, pushed, hrenamed, fun n b hn => (hinfo n b hn).1⟩
  · rw [ssaRename_mono hle hrun] at hnone
    cases hnone

/-- The lists that renaming starts with. -/
theorem RenameStart.listsStored_iff (hstart : RenameStart mid entry phis doms blockInfo vm)
    (hfilled : Filled ir phis mid) (hheap : HeapOk ir) (hdoms : CorrectDoms ir entry doms) :
    RenameListsStored doms blockInfo ↔ ∀ b, Reachable (cfgEdge ir) entry b →
      (phis b).length ≤ 250 ∧ (loadAssigns ir (ir.blocks b)).length ≤ 250 := by
  refine hdoms.forall_number fun n b hn => ?_
  obtain ⟨hphi, hla, -⟩ := hstart.info n b hn
  rw [pointersStored_init_iff, pointersStored_init_iff, hphi, hla, hfilled.loadAssigns_eq hheap]

/-- **Renaming stays within its buffers** if and only if the function with its phis fits them. -/
theorem renameStored_iff (hfilled : Filled ir phis mid) (hheap : HeapOk ir)
    (hdoms : CorrectDoms ir entry doms) (hform : SsaFunction ir entry)
    (hreg : ∀ b, ∀ p ∈ phis b, IntReg p.rId)
    (hstart : RenameStart mid entry phis doms blockInfo vm)
    (hrun : ssaRename doms fuel ⟨mid, blockInfo, vm⟩ entry = some s) :
    RenameListsStored doms blockInfo ∧ RenameStored doms fuel ⟨mid, blockInfo, vm⟩ entry s ↔
      RenamingFits ir entry phis := by
  obtain ⟨r, done, pushed, hrenamed, hinfo⟩ :=
    hstart.renamed hfilled hheap hdoms hform hreg hrun
  unfold RenameStored
  rw [hstart.listsStored_iff hfilled hheap hdoms,
    ssaRenameStored_iff hfilled hheap hdoms hform hreg hstart hrun, pairsStored_renamed_iff hrenamed (hfilled.renameForm hheap hdoms hform hreg) hfilled hheap
      hdoms hinfo]
  constructor
  · rintro ⟨hlists, hvalues, hpairs⟩
    exact ⟨fun b hb => (hlists b hb).2, fun b hb => (hlists b hb).1, hvalues, hpairs⟩
  · rintro ⟨hla, hphi, hvalues, hpairs⟩
    exact ⟨fun b hb => ⟨hphi b hb, hla b hb⟩, hvalues, hpairs⟩

end Renaming

/-! ## The conversion -/

/-- **The function fits the buffers of the steps 1 and 2**: those of the blocks, of the variables
and of the worklist. -/
structure PlacingFits (ir : Ir) (entry : ℕ) (doms : Dominators) (df : DomFrontiers) : Prop where
  loadAssigns : ∀ b, Reachable (cfgEdge ir) entry b → (loadAssigns ir (ir.blocks b)).length ≤ 250
  registers : {a | IsVariable ir entry a}.ncard ≤ 250
  worklist : ∀ a, {b | OnWorklist df (firstVariable ir doms ≠ some a)
    (Assigning ir entry a) b}.ncard ≤ 125

/-- **The function fits the buffers of `ssa_convert`**: also those of the values and of the
pairs. -/
structure ConversionFits (ir : Ir) (entry : ℕ) (doms : Dominators) (df : DomFrontiers) : Prop
    extends PlacingFits ir entry doms df where
  values : ∀ b, Reachable (cfgEdge ir) entry b → ∀ a, (assignsAbove ir entry b a).ncard +
    {d | Dominates (cfgEdge ir) entry d b ∧ GetsPhi ir entry doms df a d}.ncard ≤ 250
  pairs : ∀ a b, GetsPhi ir entry doms df a b → {q | Reachable (cfgEdge ir) entry q ∧
    b ∈ blockSuccessors ir q ∧ HoldsValue ir entry doms df a q}.ncard ≤ 16

section Conversion

variable {ir ir' : Ir} {entry : ℕ} {doms : Dominators} {df : DomFrontiers}
  {blockInfo : ℕ → BlockInfo} {vm : VariableMap} {phis : ℕ → List PhiInfo} {s : PlaceState}
  {queues : ℕ → List ℕ} {fuel a : ℕ}

/-- What `ssa_rename` starts with after the phis have been placed. -/
theorem Placed.renameStart (hplaced : Placed ir entry doms df blockInfo vm vm.list.length phis s)
    (hheap : HeapOk ir) (hdoms : CorrectDoms ir entry doms) (han : Analyzed ir doms blockInfo vm) :
    RenameStart s.ir entry phis doms s.blockInfo vm where
  info := hplaced.info_eq hheap han
  has b hb := hplaced.has hheap hdoms han b (hplaced.filled.cfgEdge_eq hheap ▸ hb)
  tops := han.tops

/-- The number of variables. -/
theorem Analyzed.ncard_variables (han : Analyzed ir doms blockInfo vm)
    (hdoms : CorrectDoms ir entry doms) (hform : LoadAssignForm ir entry) :
    {a | IsVariable ir entry a}.ncard = vm.list.length := by
  have hreg : ∀ {a}, IsVariable ir entry a → IntReg a := fun ⟨b, hb, i, hi, hia⟩ =>
    hform.reg b hb i hi _ hia
  have hinj : Set.InjOn (fun a : ℕ => toInt (a : ℤ)) {a | IsVariable ir entry a} :=
    fun a ha a' ha' heq => (toInt_reg_inj (hreg ha) (hreg ha')).mp heq
  rw [← hinj.ncard_image]
  refine ncard_eq_length han.regs.nodup fun key => ?_
  rw [han.regs.mem_list]
  constructor
  · rintro ⟨a, ⟨b, hb, i, hi, hia⟩, rfl⟩
    obtain ⟨rInfo, hr, -⟩ := han.regs.has b ((hdoms.mem b).mpr hb) i hi a hia
    dsimp only
    rw [hr]
    exact Option.some_ne_none rInfo
  · intro hne
    obtain ⟨rInfo, hr⟩ := Option.ne_none_iff_exists'.mp hne
    obtain ⟨b, hb, i, hi, hia⟩ := han.regs.reg key rInfo hr
    exact ⟨rInfo.rId, ⟨b, (hdoms.mem b).mp hb, i, hi, hia⟩, han.regs.key key rInfo hr⟩

/-- **The worklists fit** if and only if each loop ends in 126 rounds. -/
theorem Queues.fit_iff (hqueues : Queues ir entry df vm vm.list.length queues)
    (han : Analyzed ir doms blockInfo vm) (hdoms : CorrectDoms ir entry doms)
    (hform : LoadAssignForm ir entry) :
    (∀ m < vm.list.length, (queues m).length < 126) ↔ ∀ a,
      {b | OnWorklist df (firstVariable ir doms ≠ some a) (Assigning ir entry a) b}.ncard ≤ 125 := by
  have hvariable : ∀ a, IsVariable ir entry a → ∃ m < vm.list.length,
      {b | OnWorklist df (firstVariable ir doms ≠ some a) (Assigning ir entry a) b}.ncard =
        (queues m).length := by
    intro a ha
    obtain ⟨m, key, rInfo, hkey, hr, rfl, hfirst⟩ := han.exists_index hdoms hform ha
    have hm := (List.getElem?_eq_some_iff.mp hkey).1
    obtain ⟨hnodup, hmem⟩ := hqueues m hm
    refine ⟨m, hm, ncard_eq_length hnodup fun b => ?_⟩
    rw [hmem key rInfo hkey hr, ne_eq m, hfirst]
    rfl
  constructor
  · intro hall a
    by_cases ha : IsVariable ir entry a
    · obtain ⟨m, hm, hcard⟩ := hvariable a ha
      rw [hcard]
      exact Nat.le_of_lt_succ (hall m hm)
    · have hempty : {b | OnWorklist df (firstVariable ir doms ≠ some a)
          (Assigning ir entry a) b} = ∅ := by
        refine Set.eq_empty_iff_forall_notMem.mpr fun b hb => ?_
        rcases hb with hb | ⟨-, hb⟩
        · exact ha hb.isVariable
        · exact ha hb.exists_start.choose_spec.isVariable
      rw [hempty, Set.ncard_empty]
      exact Nat.zero_le 125
  · intro hall m hm
    have hget : vm.list[m]? = some vm.list[m] := List.getElem?_eq_getElem hm
    obtain ⟨rInfo, hr⟩ := Option.ne_none_iff_exists'.mp
      ((han.regs.mem_list _).mp (List.getElem_mem hm))
    obtain ⟨b, hb, i, hi, hia⟩ := han.regs.reg _ rInfo hr
    have hle := hall rInfo.rId
    obtain ⟨hnodup, hmem⟩ := hqueues m hm
    obtain ⟨m', key, rInfo', hkey, hr', hrId, hfirst⟩ := han.exists_index hdoms hform
      ⟨b, (hdoms.mem b).mp hb, i, hi, hia⟩
    -- the register has one key
    have hkeys : key = vm.list[m] := by
      rw [← han.regs.key key rInfo' hr', ← han.regs.key _ rInfo hr, hrId]
    rw [hkeys, ← hget] at hkey
    obtain rfl := (List.getElem?_inj (List.getElem?_eq_some_iff.mp (hkey.trans hget)).1
      han.regs.nodup).mp hkey
    rw [ncard_eq_length hnodup fun b => ?_] at hle
    · exact Nat.lt_succ_of_le hle
    · rw [hmem _ rInfo hget hr, ne_eq m', hfirst]
      rfl

/-- The phis above a block for a register are in the blocks above that get one. -/
theorem Placed.ncard_phisAbove
    (hplaced : Placed ir entry doms df blockInfo vm vm.list.length phis s)
    (hdoms : CorrectDoms ir entry doms) (hform : LoadAssignForm ir entry)
    (han : Analyzed ir doms blockInfo vm) (b a : ℕ) : (phisAbove ir entry phis b a).ncard =
      {d | Dominates (cfgEdge ir) entry d b ∧ GetsPhi ir entry doms df a d}.ncard := by
  have hparent : ∀ {d p}, p ∈ phis d → (s.ir.insts p.phiInst).parent = d := fun hp =>
    (hplaced.filled.phi _ _ hp).2.2.2
  have hinj : Set.InjOn (fun p : PhiInfo => (s.ir.insts p.phiInst).parent)
      (phisAbove ir entry phis b a) := by
    rintro p ⟨d, -, hp, hpa⟩ p' ⟨d', -, hp', hpa'⟩ heq
    dsimp only at heq
    rw [hparent hp, hparent hp'] at heq
    subst heq
    -- a block has one phi for a register
    by_contra hne
    have hsymm : Std.Symm fun p q : PhiInfo => toInt p.rId ≠ toInt q.rId := ⟨fun _ _ => Ne.symm⟩
    exact (hplaced.distinct d).forall hp hp' hne (by rw [hpa, hpa'])
  rw [← hinj.ncard_image]
  congr 1
  ext d
  constructor
  · rintro ⟨p, ⟨d', hd', hp, hpa⟩, rfl⟩
    dsimp only
    rw [hparent hp]
    exact ⟨hd', (hplaced.hasPhi_iff hdoms hform han).mp ⟨p, hp, hpa⟩⟩
  · rintro ⟨hd, hphi⟩
    obtain ⟨p, hp, hpa⟩ := (hplaced.hasPhi_iff hdoms hform han).mpr hphi
    exact ⟨p, ⟨d, hd, hp, hpa⟩, hparent hp⟩

/-- The predecessors that a placed phi has pairs for. -/
theorem Placed.pairBlocks_eq
    (hplaced : Placed ir entry doms df blockInfo vm vm.list.length phis s)
    (hdoms : CorrectDoms ir entry doms) (hform : LoadAssignForm ir entry)
    (han : Analyzed ir doms blockInfo vm) (b a : ℕ) : pairBlocks ir entry phis b a =
      {q | Reachable (cfgEdge ir) entry q ∧ b ∈ blockSuccessors ir q ∧
        HoldsValue ir entry doms df a q} := by
  ext q
  refine and_congr_right fun hq => and_congr_right fun _ => ?_
  refine exists_congr fun x => and_congr_right fun hx => ?_
  exact or_congr (and_iff_right (hx.reachable hq)).symm (hplaced.hasPhi_iff hdoms hform han)

/-- The renaming fits if the conversion does. -/
theorem Placed.renamingFits_iff
    (hplaced : Placed ir entry doms df blockInfo vm vm.list.length phis s)
    (hdoms : CorrectDoms ir entry doms) (hform : LoadAssignForm ir entry)
    (han : Analyzed ir doms blockInfo vm) : RenamingFits ir entry phis ↔
      (∀ b, Reachable (cfgEdge ir) entry b → (loadAssigns ir (ir.blocks b)).length ≤ 250) ∧
      (∀ b, Reachable (cfgEdge ir) entry b → (phis b).length ≤ 250) ∧
      (∀ b, Reachable (cfgEdge ir) entry b → ∀ a, (assignsAbove ir entry b a).ncard +
        {d | Dominates (cfgEdge ir) entry d b ∧ GetsPhi ir entry doms df a d}.ncard ≤ 250) ∧
      ∀ a b, GetsPhi ir entry doms df a b → {q | Reachable (cfgEdge ir) entry q ∧
        b ∈ blockSuccessors ir q ∧ HoldsValue ir entry doms df a q}.ncard ≤ 16 := by
  have habove := hplaced.ncard_phisAbove hdoms hform han
  have hblocks := hplaced.pairBlocks_eq hdoms hform han
  constructor
  · rintro ⟨hla, hphi, hvalues, hpairs⟩
    refine ⟨hla, hphi, fun b hb a => habove b a ▸ hvalues b hb a, fun a b hgets => ?_⟩
    obtain ⟨p, hp, rfl⟩ := (hplaced.hasPhi_iff hdoms hform han).mpr hgets
    rw [← hblocks]
    exact hpairs b (hplaced.inside b p hp) p hp
  · rintro ⟨hla, hphi, hvalues, hpairs⟩
    refine ⟨hla, hphi, fun b hb a => (habove b a).symm ▸ hvalues b hb a, fun b _ p hp => ?_⟩
    rw [hblocks]
    exact hpairs p.rId b ((hplaced.hasPhi_iff hdoms hform han).mp ⟨p, hp, rfl⟩)

/-- A block has at most one phi for each variable. -/
theorem Placed.length_phis_le
    (hplaced : Placed ir entry doms df blockInfo vm vm.list.length phis s) (b : ℕ) :
    (phis b).length ≤ vm.list.length := by
  rw [← List.length_map (fun p : PhiInfo => toInt p.rId)]
  refine (List.Nodup.subperm (List.pairwise_map.mpr (hplaced.distinct b)) ?_).length_le
  intro key hkey
  obtain ⟨p, hp, rfl⟩ := List.mem_map.mp hkey
  obtain ⟨m, -, hm, -⟩ := hplaced.reg b p hp
  exact List.mem_of_getElem? hm

/-- What step 1 collects is stored. -/
theorem Analyzed.stored_iff (han : Analyzed ir doms blockInfo vm) (hheap : HeapOk ir)
    (hdoms : CorrectDoms ir entry doms) (hform : LoadAssignForm ir entry)
    (hqueues : Queues ir entry df vm vm.list.length queues)
    (hfit : ∀ m < vm.list.length, (queues m).length < 126) :
    AnalysisStored doms blockInfo vm ↔
      (∀ b, Reachable (cfgEdge ir) entry b → (loadAssigns ir (ir.blocks b)).length ≤ 250) ∧
        {a | IsVariable ir entry a}.ncard ≤ 250 := by
  have hlists : (∀ n < doms.elementCount, PointersStored 1000 (blockInfo n).regList.length ∧
      PointersStored 1000 (blockInfo n).loadAssigns.length) ↔ ∀ b,
        Reachable (cfgEdge ir) entry b → (loadAssigns ir (ir.blocks b)).length ≤ 250 := by
    refine hdoms.forall_number fun n b hn => ?_
    have hle := han.regList n b hn
    rw [pointersStored_init_iff, pointersStored_init_iff, (han.info n b hn).collected] at *
    exact ⟨And.right, fun h => ⟨hle.trans h, h⟩⟩
  -- the assigns of a variable are on its worklist
  have hassigns : ∀ key ∈ vm.list, ∀ rInfo ∈ vm.regs key,
      PointersStored 1000 rInfo.assigns.length := by
    intro key hkey rInfo hr
    obtain ⟨m, hm⟩ := List.mem_iff_getElem?.mp hkey
    have hlt := (List.getElem?_eq_some_iff.mp hm).1
    obtain ⟨-, hmem⟩ := hqueues m hlt
    have hsub : (rInfo.assigns.map fun i => (ir.insts i).parent) ⊆ queues m := fun x hx =>
      (hmem key rInfo hm hr x).mpr (.inl ((han.regs.mem_assigns hheap hdoms hform hr x).mp hx))
    have hle := ((han.apart key rInfo hr).subperm hsub).length_le
    rw [List.length_map] at hle
    have hfew := hfit m hlt
    exact pointersStored_init_iff.mpr (by omega)
  unfold AnalysisStored
  rw [hlists, han.ncard_variables hdoms hform, pointersStored_init_iff]
  exact and_congr_right fun _ => and_iff_left hassigns

/-- **The steps 1 and 2 stay within their buffers** if and only if the function fits them. -/
theorem placingStored_iff (hheap : HeapOk ir) (hdoms : CorrectDoms ir entry doms)
    (hform : LoadAssignForm ir entry) (han : Analyzed ir doms blockInfo vm)
    (hqueues : Queues ir entry df vm vm.list.length queues)
    (hplaced : Placed ir entry doms df blockInfo vm vm.list.length phis s)
    (hplace : ∀ fuel, placePhis doms df fuel ir blockInfo vm =
      if ∀ m < vm.list.length, (queues m).length < fuel then some s else none) :
    AnalysisStored doms blockInfo vm ∧ placePhisStored doms df ir blockInfo vm = some s ↔
      PlacingFits ir entry doms df := by
  have hcount := han.ncard_variables hdoms hform
  have hphiLists : PhiListsStored doms s.blockInfo ↔ ∀ b, Reachable (cfgEdge ir) entry b →
      (phis b).length ≤ 250 := by
    refine hdoms.forall_number fun n b hn => ?_
    rw [pointersStored_init_iff, (hplaced.info_eq hheap han n b hn).1]
  have hstored : placePhisStored doms df ir blockInfo vm = some s ↔
      (∀ m < vm.list.length, (queues m).length < 126) ∧ PhiListsStored doms s.blockInfo := by
    unfold placePhisStored
    rw [hplace]
    constructor
    · intro h
      obtain ⟨t, ht, h⟩ := Option.bind_eq_some_iff.mp h
      split at ht
      · rename_i hfit
        obtain rfl := Option.some.inj ht
        obtain ⟨_, hguard, -⟩ := Option.bind_eq_some_iff.mp h
        exact ⟨hfit, (Option.guard_eq_some' _).mp hguard⟩
      · cases ht
    · rintro ⟨hfit, hlists⟩
      exact Option.bind_eq_some_iff.mpr ⟨s, if_pos hfit, Option.bind_eq_some_iff.mpr
        ⟨(), (Option.guard_eq_some' _).mpr hlists, rfl⟩⟩
  rw [hstored]
  constructor
  · rintro ⟨hanalysis, hfit, -⟩
    obtain ⟨hla, hvars⟩ := (han.stored_iff hheap hdoms hform hqueues hfit).mp hanalysis
    exact ⟨hla, hvars, (hqueues.fit_iff han hdoms hform).mp hfit⟩
  · rintro ⟨hla, hvars, hwork⟩
    have hfit := (hqueues.fit_iff han hdoms hform).mpr hwork
    exact ⟨(han.stored_iff hheap hdoms hform hqueues hfit).mpr ⟨hla, hvars⟩, hfit,
      hphiLists.mpr fun b _ => (hplaced.length_phis_le b).trans (hcount ▸ hvars)⟩

/-- The steps of a conversion within its buffers. -/
theorem ssaConvertStored_steps {s' : RenameState}
    (hanalyze : analyzeBlocks ir doms = some (blockInfo, vm))
    (hplace : ∀ t, placePhisStored doms df ir blockInfo vm = some t → t = s)
    (hrename : ssaRename doms fuel ⟨s.ir, s.blockInfo, vm⟩ entry = some s') :
    ssaConvertStored doms df fuel ir entry =
        some (removePhis s'.blockInfo doms.elementCount s'.ir) ↔
      (AnalysisStored doms blockInfo vm ∧ placePhisStored doms df ir blockInfo vm = some s) ∧
        RenameStored doms fuel ⟨s.ir, s.blockInfo, vm⟩ entry s' := by
  unfold ssaConvertStored
  rw [hanalyze, Option.bind_eq_bind, Option.bind_some]
  dsimp only
  constructor
  · intro h
    obtain ⟨_, hanalysis, h₁⟩ := Option.bind_eq_some_iff.mp h
    obtain ⟨t, ht, h₂⟩ := Option.bind_eq_some_iff.mp h₁
    obtain ⟨u, hu, h₃⟩ := Option.bind_eq_some_iff.mp h₂
    obtain ⟨_, hpairs, -⟩ := Option.bind_eq_some_iff.mp h₃
    have hts := hplace t ht
    rw [hts] at ht hu
    have hsame := ssaRename_of_stored hu
    rw [hrename] at hsame
    rw [← Option.some.inj hsame] at hu hpairs
    exact ⟨⟨(Option.guard_eq_some' _).mp hanalysis, ht⟩, hu, (Option.guard_eq_some' _).mp hpairs⟩
  · rintro ⟨⟨hanalysis, hs⟩, hu, hpairs⟩
    exact Option.bind_eq_some_iff.mpr ⟨(), (Option.guard_eq_some' _).mpr hanalysis,
      Option.bind_eq_some_iff.mpr ⟨s, hs, Option.bind_eq_some_iff.mpr ⟨s', hu,
        Option.bind_eq_some_iff.mpr ⟨(), (Option.guard_eq_some' _).mpr hpairs, rfl⟩⟩⟩⟩

/-- What step 2 within its buffers ends with. -/
theorem placePhisStored_eq (hplace : ∀ fuel, placePhis doms df fuel ir blockInfo vm =
      if ∀ m < vm.list.length, (queues m).length < fuel then some s else none) {t : PlaceState}
    (h : placePhisStored doms df ir blockInfo vm = some t) : t = s := by
  obtain ⟨t', ht', h₁⟩ := Option.bind_eq_some_iff.mp h
  obtain ⟨_, _, heq⟩ := Option.bind_eq_some_iff.mp h₁
  obtain rfl := Option.some.inj heq
  rw [hplace] at ht'
  split at ht'
  · exact (Option.some.inj ht').symm
  · cases ht'

/-- **The conversion stays within its buffers** if and only if the function fits them. -/
theorem ssaConvertStored_iff (hheap : HeapOk ir) (hdoms : CorrectDoms ir entry doms)
    (hform : SsaFunction ir entry)
    (hdf : ∀ x, Reachable (cfgEdge ir) entry x → ∀ y ∈ domfrontiersGet df x,
      Reachable (cfgEdge ir) entry y) (hrun : ssaConvert doms df fuel ir entry = some ir') :
    ssaConvertStored doms df fuel ir entry = some ir' ↔ ConversionFits ir entry doms df := by
  have hla := hform.toLoadAssignForm
  obtain ⟨blockInfo, vm, hanalyze, han⟩ := analyzeBlocks_spec hheap hdoms.nodup hdoms.count
  obtain ⟨phis, s, queues, hqueues, hplaced, hplace⟩ := placePhis_queues hheap hdoms hla han hdf
  have hstart := hplaced.renameStart hheap hdoms han
  -- the steps of the run
  unfold ssaConvert at hrun
  rw [hanalyze, Option.bind_eq_bind, Option.bind_some] at hrun
  obtain ⟨t, ht, hrun₁⟩ := Option.bind_eq_some_iff.mp hrun
  obtain ⟨s', hrename, hrun₂⟩ := Option.bind_eq_some_iff.mp hrun₁
  have hts : t = s := by
    rw [hplace] at ht
    split at ht
    · exact (Option.some.inj ht).symm
    · cases ht
  rw [hts] at hrename
  rw [← Option.some.inj hrun₂, ssaConvertStored_steps hanalyze
    (fun t ht => placePhisStored_eq hplace ht) hrename,
    placingStored_iff hheap hdoms hla han hqueues hplaced hplace]
  have hrenaming := renameStored_iff hplaced.filled hheap hdoms hform
    (hplaced.intReg hdoms hla han) hstart hrename
  have hfits := hplaced.renamingFits_iff hdoms hla han
  have hlists : PlacingFits ir entry doms df → RenameListsStored doms s.blockInfo ∧
      ∀ b, Reachable (cfgEdge ir) entry b → (phis b).length ≤ 250 := by
    intro hplacing
    have hphis : ∀ b, Reachable (cfgEdge ir) entry b → (phis b).length ≤ 250 := fun b _ =>
      (hplaced.length_phis_le b).trans (han.ncard_variables hdoms hla ▸ hplacing.registers)
    exact ⟨(hstart.listsStored_iff hplaced.filled hheap hdoms).mpr fun b hb =>
      ⟨hphis b hb, hplacing.loadAssigns b hb⟩, hphis⟩
  constructor
  · rintro ⟨hplacing, hstored⟩
    obtain ⟨-, -, hvalues, hpairs⟩ :=
      hfits.mp (hrenaming.mp ⟨(hlists hplacing).1, hstored⟩)
    exact ⟨hplacing, hvalues, hpairs⟩
  · rintro ⟨hplacing, hvalues, hpairs⟩
    exact ⟨hplacing, (hrenaming.mpr (hfits.mpr
      ⟨hplacing.loadAssigns, (hlists hplacing).2, hvalues, hpairs⟩)).2⟩

/-- A conversion within its buffers is a conversion. -/
theorem ssaConvert_of_stored (h : ssaConvertStored doms df fuel ir entry = some ir') {steps : ℕ}
    (hsteps : 126 ≤ steps) (hle : fuel ≤ steps) : ssaConvert doms df steps ir entry = some ir' := by
  obtain ⟨⟨blockInfo, vm⟩, hanalyze, h₁⟩ := Option.bind_eq_some_iff.mp h
  obtain ⟨_, _, h₂⟩ := Option.bind_eq_some_iff.mp h₁
  obtain ⟨s, hs, h₃⟩ := Option.bind_eq_some_iff.mp h₂
  obtain ⟨s', hs', h₄⟩ := Option.bind_eq_some_iff.mp h₃
  obtain ⟨_, _, hlast⟩ := Option.bind_eq_some_iff.mp h₄
  obtain ⟨t, ht, hs₁⟩ := Option.bind_eq_some_iff.mp hs
  obtain ⟨_, _, heq⟩ := Option.bind_eq_some_iff.mp hs₁
  obtain rfl := Option.some.inj heq
  exact Option.bind_eq_some_iff.mpr ⟨_, hanalyze, Option.bind_eq_some_iff.mpr
    ⟨t, placePhis_mono hsteps ht, Option.bind_eq_some_iff.mpr
      ⟨s', ssaRename_mono hle (ssaRename_of_stored hs'), hlast⟩⟩⟩

end Conversion

/-! ## Small functions -/

section Small

variable {ir : Ir} {entry : ℕ} {doms : Dominators} {df : DomFrontiers} {phis : ℕ → List PhiInfo}

/-- The number of elements of a set whose elements are in a list. -/
theorem ncard_le_length {α : Type*} {l : List α} {S : Set α} (hS : ∀ x ∈ S, x ∈ l) :
    S.ncard ≤ l.length := by
  classical
  calc S.ncard ≤ (l.toFinset : Set α).ncard :=
        Set.ncard_le_ncard (fun x hx => List.mem_toFinset.mpr (hS x hx)) (Finset.finite_toSet _)
    _ = l.toFinset.card := Set.ncard_coe_finset _
    _ ≤ l.length := List.toFinset_card_le l

/-- The loads and assigns of the reachable blocks. -/
def allLoadAssigns (ir : Ir) (doms : Dominators) : List ℕ :=
  doms.postorder.flatMap fun b => loadAssigns ir (ir.blocks b)

theorem CorrectDoms.mem_allLoadAssigns (hdoms : CorrectDoms ir entry doms) {b i : ℕ}
    (hb : Reachable (cfgEdge ir) entry b) (hi : i ∈ loadAssigns ir (ir.blocks b)) :
    i ∈ allLoadAssigns ir doms := List.mem_flatMap.mpr ⟨b, (hdoms.mem b).mpr hb, hi⟩

theorem CorrectDoms.loadAssigns_le (hdoms : CorrectDoms ir entry doms) {b : ℕ}
    (hb : Reachable (cfgEdge ir) entry b) :
    (loadAssigns ir (ir.blocks b)).length ≤ (allLoadAssigns ir doms).length := by
  unfold allLoadAssigns
  rw [List.length_flatMap]
  exact List.le_sum_of_mem (List.mem_map.mpr ⟨b, (hdoms.mem b).mpr hb, rfl⟩)

theorem CorrectDoms.assignsAbove_le (hdoms : CorrectDoms ir entry doms) {b : ℕ}
    (hb : Reachable (cfgEdge ir) entry b) (a : ℕ) :
    (assignsAbove ir entry b a).ncard ≤ (allLoadAssigns ir doms).length :=
  ncard_le_length fun _ ⟨_, hd, hi, htype⟩ =>
    hdoms.mem_allLoadAssigns (hd.reachable hb) (mem_loadAssigns.mpr ⟨hi, by rw [htype]; rfl⟩)

/-- **A few blocks** with few loads, assigns and phis fit the buffers of `ssa_rename`. -/
theorem RenamingFits.of_few (hdoms : CorrectDoms ir entry doms) (hfew : doms.elementCount ≤ 16)
    (hsmall : (allLoadAssigns ir doms).length + (doms.postorder.flatMap phis).length ≤ 250) :
    RenamingFits ir entry phis where
  loadAssigns b hb := (hdoms.loadAssigns_le hb).trans (by omega)
  phiList b hb := by
    have hle : (phis b).length ≤ (doms.postorder.flatMap phis).length := by
      rw [List.length_flatMap]
      exact List.le_sum_of_mem (List.mem_map.mpr ⟨b, (hdoms.mem b).mpr hb, rfl⟩)
    omega
  values b hb a := by
    have hassigns := hdoms.assignsAbove_le hb a
    have hphis : (phisAbove ir entry phis b a).ncard ≤ (doms.postorder.flatMap phis).length :=
      ncard_le_length fun _ ⟨d, hd, hp, _⟩ =>
        List.mem_flatMap.mpr ⟨d, (hdoms.mem d).mpr (hd.reachable hb), hp⟩
    omega
  pairs _ _ _ _ := by
    refine (ncard_le_length fun q hq => (hdoms.mem q).mpr hq.1).trans ?_
    rw [← hdoms.count]
    exact hfew

theorem CorrectDoms.nodup_allLoadAssigns (hdoms : CorrectDoms ir entry doms) (hheap : HeapOk ir) :
    (allLoadAssigns ir doms).Nodup := by
  refine List.nodup_flatMap.mpr ⟨fun b _ => (hheap.nodup b).filter _, hdoms.nodup.imp ?_⟩
  intro b c hne i hi hi'
  exact hne (hheap.block_unique (List.mem_of_mem_filter hi) (List.mem_of_mem_filter hi'))

theorem CorrectDoms.finite_predecessors (hdoms : CorrectDoms ir entry doms) (b : ℕ) :
    {q | Reachable (cfgEdge ir) entry q ∧ b ∈ blockSuccessors ir q}.Finite :=
  doms.postorder.finite_toSet.subset fun q hq => (hdoms.mem q).mpr hq.1

/-- A block has no more predecessors than there are blocks. -/
theorem CorrectDoms.predecessors_le (hdoms : CorrectDoms ir entry doms) (b : ℕ) :
    {q | Reachable (cfgEdge ir) entry q ∧ b ∈ blockSuccessors ir q}.ncard ≤ doms.elementCount := by
  rw [hdoms.count]
  exact ncard_le_length fun q hq => (hdoms.mem q).mpr hq.1

/-- **Few blocks and predecessors** with few loads and assigns fit the buffers of `ssa_convert`. -/
theorem ConversionFits.of_few (hdoms : CorrectDoms ir entry doms)
    (hdf : ∀ x, Reachable (cfgEdge ir) entry x → ∀ y ∈ domfrontiersGet df x,
      Reachable (cfgEdge ir) entry y) (hblocks : doms.elementCount ≤ 125)
    (hpredecessors : ∀ b, {q | Reachable (cfgEdge ir) entry q ∧ b ∈ blockSuccessors ir q}.ncard ≤ 16)
    (hsmall : (allLoadAssigns ir doms).length + doms.elementCount ≤ 250) :
    ConversionFits ir entry doms df where
  loadAssigns b hb := (hdoms.loadAssigns_le hb).trans (by omega)
  registers := by
    have hle : {a | IsVariable ir entry a}.ncard ≤ ((allLoadAssigns ir doms).filterMap
        fun i => (ir.insts i).type.rId).length := by
      refine ncard_le_length fun a ⟨b, hb, i, hi, hia⟩ => ?_
      refine List.mem_filterMap.mpr ⟨i, hdoms.mem_allLoadAssigns hb
        (mem_loadAssigns.mpr ⟨hi, ?_⟩), hia⟩
      cases htype : (ir.insts i).type <;> rw [htype] at hia <;> first | rfl | cases hia
    exact hle.trans ((List.length_filterMap_le _ _).trans (by omega))
  worklist a := by
    have hle := ncard_le_length (l := doms.postorder)
      (S := {b | OnWorklist df (firstVariable ir doms ≠ some a) (Assigning ir entry a) b})
      fun b hb => (hdoms.mem b).mpr (hb.elim And.left fun h => h.2.reachable hdf fun _ hx => hx.1)
    rw [← hdoms.count] at hle
    exact hle.trans hblocks
  values b hb a := by
    have hassigns := hdoms.assignsAbove_le hb a
    have hphis := ncard_le_length (l := doms.postorder)
      (S := {d | Dominates (cfgEdge ir) entry d b ∧ GetsPhi ir entry doms df a d})
      fun d hd => (hdoms.mem d).mpr (hd.1.reachable hb)
    rw [← hdoms.count] at hphis
    omega
  pairs a b _ := by
    have hsub : {q | Reachable (cfgEdge ir) entry q ∧ b ∈ blockSuccessors ir q ∧
        HoldsValue ir entry doms df a q} ⊆
        {q | Reachable (cfgEdge ir) entry q ∧ b ∈ blockSuccessors ir q} :=
      fun q hq => ⟨hq.1, hq.2.1⟩
    exact (Set.ncard_le_ncard hsub (hdoms.finite_predecessors b)).trans (hpredecessors b)

end Small
