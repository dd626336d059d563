/-
# The operands of phis

`ssa_rename` gives a phi a pair for each predecessor at whose end its variable has a value on
the stack, and passes over the others.  So a phi is complete where its variable has a value
at the end of every predecessor (`Converted.phiPairs`), which `HasValue` tells from the
blocks that assign it or hold a phi for it.  `createFunction_phisFilled` is this for created
functions.
-/
import MCompiler.SsaUses
import MCompiler.SsaPrecondition
import MCompiler.DominatorChains

open FlowGraph

/-- The number of operand pairs of a phi for the block `q`. -/
def pairCount (ir : Ir) (phi q : ℕ) : ℕ :=
  (phiPairs (ir.insts phi).uses).countP fun e => e.1 = some (.block q)

/-- The phi `i` of the block `b` has one pair for each reachable predecessor that is `valued`,
and none for any other block. -/
def PhiPairs (ir : Ir) (entry : ℕ) (valued : ℕ → Prop) (b i : ℕ) : Prop :=
  ∀ q, (Reachable (cfgEdge ir) entry q ∧ b ∈ blockSuccessors ir q ∧ valued q →
      pairCount ir i q = 1) ∧
    (¬ (Reachable (cfgEdge ir) entry q ∧ b ∈ blockSuccessors ir q ∧ valued q) →
      pairCount ir i q = 0)

theorem PhiPairs.congr {ir : Ir} {entry b i : ℕ} {valued valued' : ℕ → Prop}
    (h : PhiPairs ir entry valued b i)
    (hvalued : ∀ q, Reachable (cfgEdge ir) entry q → (valued q ↔ valued' q)) :
    PhiPairs ir entry valued' b i := by
  intro q
  have hiff : (Reachable (cfgEdge ir) entry q ∧ b ∈ blockSuccessors ir q ∧ valued q) ↔
      (Reachable (cfgEdge ir) entry q ∧ b ∈ blockSuccessors ir q ∧ valued' q) :=
    and_congr_right fun hq => and_congr_right fun _ => hvalued q hq
  rw [← hiff]
  exact h q

/-- The variable with the key has a value at the end of the block `q`: a dominator assigns it,
or holds a phi for it when the phis have been placed. -/
def HasValue (ir : Ir) (entry : ℕ) (doms : Dominators) (s : PlaceState) (key : ℤ) (q : ℕ) : Prop :=
  ∃ x, Dominates (cfgEdge ir) entry x q ∧
    ((∃ i ∈ ir.blocks x, ∃ a : ℕ, (ir.insts i).type = .assignVar a ∧ toInt a = key) ∨
      ∃ n : ℕ, doms.postorder[n]? = some x ∧ ∃ p ∈ (s.blockInfo n).phiList, toInt p.rId = key)

/-- Every phi that is left in a reachable block has one pair for each predecessor at whose end
its variable has a value. -/
def PhisFilled (ir : Ir) (entry : ℕ) (doms : Dominators) (s : PlaceState) (ir' : Ir) : Prop :=
  ∀ b, Reachable (cfgEdge ir') entry b → ∀ i ∈ ir'.blocks b, (ir'.insts i).type = .phi →
    ∃ n : ℕ, doms.postorder[n]? = some b ∧ ∃ p ∈ (s.blockInfo n).phiList, p.phiInst = i ∧
      PhiPairs ir' entry (HasValue ir entry doms s (toInt p.rId)) b i

/-! ## One phi -/

theorem countP_phiPairs (pushed : List PhiOperand) (phi q : ℕ) :
    (phiPairs (phiUses pushed phi)).countP (fun e => e.1 = some (.block q)) =
      pushed.countP fun e => e.phi = phi ∧ e.block = q := by
  induction pushed with
  | nil => rfl
  | cons o pushed ih =>
      have hcons : phiUses (o :: pushed) phi =
          (if o.phi = phi then [some (.block o.block), some o.value] else []) ++
            phiUses pushed phi := rfl
      rw [hcons, List.countP_cons, ← ih]
      by_cases ho : o.phi = phi
      · rw [if_pos ho]
        show List.countP _ ((some (.block o.block), some o.value) ::
          phiPairs (phiUses pushed phi)) = _
        rw [List.countP_cons]
        simp [ho]
      · rw [if_neg ho, List.nil_append]
        simp [ho]

section Converted

variable {ir : Ir} {entry : ℕ} {phis : ℕ → List PhiInfo} {r : Renaming} {done : List ℕ}
  {pushed : List PhiOperand} {mid mid' ir' : Ir} {b q : ℕ} {p : PhiInfo}

/-- A phi is in one list, once. -/
theorem Filled.phi_unique (h : Filled ir phis mid) {c : ℕ} {p' : PhiInfo} (hp : p ∈ phis b)
    (hp' : p' ∈ phis c) (heq : p'.phiInst = p.phiInst) : c = b ∧ p' = p := by
  have hcb : c = b := by
    rw [← (h.phi b p hp).2.2.2, ← heq]
    exact (h.phi c p' hp').2.2.2.symm
  subst hcb
  exact ⟨rfl, List.inj_on_of_nodup_map (h.nodup c) hp' hp heq⟩

/-- The operands that the phi gets. -/
theorem Renamed.mem_pushed_iff (h : Renamed mid entry phis (Reachable (cfgEdge mid) entry) r done
    pushed mid') (hfilled : Filled ir phis mid) (hp : p ∈ phis b) (v : Value) :
    ⟨q, p.phiInst, v⟩ ∈ pushed ↔ Reachable (cfgEdge mid) entry q ∧ b ∈ blockSuccessors mid q ∧
      r.outEnv q p.rId = some v := by
  rw [h.mem_pushed]
  refine and_congr_right fun _ => ?_
  constructor
  · rintro ⟨c, hc, p', hp', heq, hv⟩
    obtain ⟨rfl, rfl⟩ := hfilled.phi_unique hp hp' heq
    exact ⟨hc, hv⟩
  · rintro ⟨hb, hv⟩
    exact ⟨b, hb, p, hp, rfl, hv⟩

@[inherit_doc Renamed.mem_pushed_iff]
theorem Converted.mem_pushed (h : Converted ir entry phis r done pushed mid mid' ir')
    (hp : p ∈ phis b) (v : Value) : ⟨q, p.phiInst, v⟩ ∈ pushed ↔
      Reachable (cfgEdge mid) entry q ∧ b ∈ blockSuccessors mid q ∧
        r.outEnv q p.rId = some v :=
  h.renamed.mem_pushed_iff h.filled hp v

theorem Converted.pairCount_eq (h : Converted ir entry phis r done pushed mid mid' ir')
    (hp : p ∈ phis b) :
    pairCount ir' p.phiInst q = pushed.countP fun e => e.phi = p.phiInst ∧ e.block = q := by
  have huses : (ir'.insts p.phiInst).uses = phiUses pushed p.phiInst := by
    rw [h.only.insts, h.renamed.rewritten.insts, h.filled.unused _ (h.filled.phi b p hp).1]
    rfl
  unfold pairCount
  rw [huses]
  exact countP_phiPairs pushed p.phiInst q

/-- **The pairs of a phi.** -/
theorem Converted.phiPairs (h : Converted ir entry phis r done pushed mid mid' ir')
    (hheap : HeapOk ir) (hp : p ∈ phis b) :
    PhiPairs ir' entry
      (fun q => ∃ x, Dominates (cfgEdge mid) entry x q ∧ Writes mid phis x p.rId) b p.phiInst := by
  obtain ⟨doms, hinput⟩ := h.input
  have hcfg := h.filled.cfgEdge_eq hheap
  have hreach : ∀ q, Reachable (cfgEdge ir') entry q ↔ Reachable (cfgEdge mid) entry q := by
    intro q
    rw [hcfg]
    exact (reachable_congr fun a ha y => h.cfgEdge_iff hheap ha y).symm
  have hsucc : ∀ q, Reachable (cfgEdge mid) entry q →
      (b ∈ blockSuccessors ir' q ↔ b ∈ blockSuccessors mid q) := by
    intro q hq
    rw [h.filled.blockSuccessors_eq hheap]
    exact (h.cfgEdge_iff hheap ((h.reachable_iff hheap).mp hq) b).symm
  have hvalued : ∀ q, Reachable (cfgEdge mid) entry q → (r.outEnv q p.rId ≠ none ↔
      ∃ x, Dominates (cfgEdge mid) entry x q ∧ Writes mid phis x p.rId) := fun q hq =>
    h.renamed.outEnv_ne_none hinput.toRenameForm (fun x hx y hy => hy.reachable hx) hq hq p.rId
  intro q
  rw [h.pairCount_eq hp, hreach]
  constructor
  · rintro ⟨hq, hb, hval⟩
    rw [hsucc q hq] at hb
    obtain ⟨v, hv⟩ := Option.ne_none_iff_exists'.mp ((hvalued q hq).mpr hval)
    -- one operand, with the value at the end of `q`
    rw [← List.count_eq_one_of_mem h.renamed.rewritten.nodup
      ((h.mem_pushed hp v).mpr ⟨hq, hb, hv⟩), List.count_eq_countP]
    apply List.countP_congr
    rintro ⟨eb, ep, ev⟩ he
    simp only [decide_eq_true_eq, beq_iff_eq, PhiOperand.mk.injEq]
    constructor
    · rintro ⟨rfl, rfl⟩
      have hev := ((h.mem_pushed hp ev).mp he).2.2
      exact ⟨rfl, rfl, Option.some.inj (hev.symm.trans hv)⟩
    · rintro ⟨rfl, rfl, -⟩
      exact ⟨rfl, rfl⟩
  · intro hnot
    apply List.countP_eq_zero.mpr
    rintro ⟨eb, ep, ev⟩ he heq
    obtain ⟨rfl, rfl⟩ := of_decide_eq_true heq
    obtain ⟨hq, hb, hev⟩ := (h.mem_pushed hp ev).mp he
    refine hnot ⟨hq, (hsucc _ hq).mpr hb, (hvalued _ hq).mp ?_⟩
    rw [hev]
    exact Option.some_ne_none ev

/-- Where the variable of a phi has a value. -/
theorem Placed.hasValue_iff {doms : Dominators} {df : DomFrontiers} {blockInfo : ℕ → BlockInfo}
    {vm : VariableMap} {k : ℕ} {s : PlaceState}
    (h : Placed ir entry doms df blockInfo vm k phis s) (hheap : HeapOk ir)
    (hdoms : CorrectDoms ir entry doms) (hform : LoadAssignForm ir entry)
    (han : Analyzed ir doms blockInfo vm) (hq : Reachable (cfgEdge ir) entry q) {a : ℕ}
    (ha : IntReg a) :
    (∃ x, Dominates (cfgEdge s.ir) entry x q ∧ Writes s.ir phis x a) ↔
      HasValue ir entry doms s (toInt a) q := by
  unfold HasValue
  rw [h.filled.cfgEdge_eq hheap]
  refine exists_congr fun x => and_congr_right fun hx => ?_
  have hxreach := hx.reachable hq
  rw [h.filled.writes_iff hheap]
  refine or_congr ?_ ?_
  · refine exists_congr fun i => and_congr_right fun hi => ?_
    constructor
    · exact fun htype => ⟨a, htype, rfl⟩
    · rintro ⟨a', htype, haa⟩
      have hreg : IntReg a' := hform.reg x hxreach i hi a' (by rw [htype]; rfl)
      rw [htype, (toInt_reg_inj hreg ha).mp haa]
  · constructor
    · rintro ⟨p, hp, rfl⟩
      obtain ⟨n, hn⟩ := List.mem_iff_getElem?.mp ((hdoms.mem x).mpr hxreach)
      refine ⟨n, hn, p, ?_, rfl⟩
      rw [(h.info_eq hheap han n x hn).1]
      exact hp
    · rintro ⟨n, hn, p, hp, hpa⟩
      rw [(h.info_eq hheap han n x hn).1] at hp
      exact ⟨p, hp, (toInt_reg_inj (h.intReg hdoms hform han x p hp) ha).mp hpa⟩

end Converted

/-! ## The conversion -/

/-- **Phis after `ssa_convert`**, for registers that are told apart. -/
theorem ssaConvert_phisFilled {ir ir' : Ir} {entry : ℕ} {doms : Dominators} {df : DomFrontiers}
    (hheap : HeapOk ir) (hdoms : CorrectDoms ir entry doms) (hform : SsaFunction ir entry)
    (hfree : PhiFree ir entry)
    (hdf : ∀ x, Reachable (cfgEdge ir) entry x → ∀ y ∈ domfrontiersGet df x,
      Reachable (cfgEdge ir) entry y) {fuel : ℕ}
    (hrun : ssaConvert doms df fuel ir entry = some ir') :
    ∃ blockInfo vm s, analyzeBlocks ir doms = some (blockInfo, vm) ∧
      placePhis doms df fuel ir blockInfo vm = some s ∧ PhisFilled ir entry doms s ir' := by
  obtain ⟨blockInfo, vm, phis, s, r, done, pushed, mid', han, hanalyze, hplaced, hplace,
    hconverted⟩ := converted_of_ssaConvert hheap hdoms hform hdf hrun
  refine ⟨blockInfo, vm, s, hanalyze, hplace, fun b hb i hi htype => ?_⟩
  have hbir : Reachable (cfgEdge ir) entry b :=
    (reachable_congr fun a ha y => hconverted.cfgEdge_iff hheap ha y).mpr hb
  -- the phi was placed, as the function had none
  obtain ⟨p, hp, rfl⟩ : ∃ p ∈ phis b, p.phiInst = i := by
    rcases hplaced.filled.mem_blocks.mp (hconverted.mem_blocks_iff hi) with hp | hir
    · exact hp
    · rw [hconverted.type, hplaced.filled.insts_of_mem hheap hir] at htype
      exact absurd htype (hfree b hbir i hir)
  obtain ⟨n, hn⟩ := List.mem_iff_getElem?.mp ((hdoms.mem b).mpr hbir)
  refine ⟨n, hn, p, ?_, rfl, (hconverted.phiPairs hheap hp).congr fun q hq => ?_⟩
  · rw [(hplaced.info_eq hheap han n b hn).1]
    exact hp
  · exact hplaced.hasValue_iff hheap hdoms hform.toLoadAssignForm han
      ((reachable_congr fun a ha y => hconverted.cfgEdge_iff hheap ha y).mpr hq)
      (hplaced.intReg hdoms hform.toLoadAssignForm han b p hp)

section MapRegs

variable {ir ir' : Ir} {entry : ℕ} {doms : Dominators} {s : PlaceState} {f : ℕ → ℕ}
  (hf : ∀ a : ℕ, toInt (f a : ℤ) = toInt (a : ℤ))
include hf

/-- Other registers with the same keys have their values in the same blocks. -/
theorem hasValue_mapRegs {key : ℤ} {q : ℕ} :
    HasValue (ir.mapRegs f) entry doms (s.mapRegs f) key q ↔ HasValue ir entry doms s key q := by
  unfold HasValue
  rw [cfgEdge_mapRegs]
  refine exists_congr fun x => and_congr_right fun _ => or_congr ?_ ?_
  · refine exists_congr fun i => and_congr_right fun _ => ?_
    rw [mapRegs_type]
    constructor
    · rintro ⟨a, htype, hkey⟩
      obtain ⟨c, hc, rfl⟩ := InstType.mapRegs_eq_assignVar.mp htype
      exact ⟨c, hc, (hf c).symm.trans hkey⟩
    · rintro ⟨a, htype, hkey⟩
      exact ⟨f a, InstType.mapRegs_eq_assignVar.mpr ⟨a, htype, rfl⟩, (hf a).trans hkey⟩
  · refine exists_congr fun n => and_congr_right fun _ => ?_
    constructor
    · rintro ⟨p, hp, hkey⟩
      obtain ⟨p₀, hp₀, rfl⟩ := List.mem_map.mp hp
      exact ⟨p₀, hp₀, (hf p₀.rId).symm.trans hkey⟩
    · rintro ⟨p, hp, hkey⟩
      exact ⟨p.mapRegs f, List.mem_map_of_mem hp, (hf p.rId).trans hkey⟩

theorem PhisFilled.of_mapRegs
    (h : PhisFilled (ir.mapRegs f) entry doms (s.mapRegs f) (ir'.mapRegs f)) :
    PhisFilled ir entry doms s ir' := by
  intro b hb i hi htype
  have hb' : Reachable (cfgEdge (ir'.mapRegs f)) entry b := by
    rw [cfgEdge_mapRegs]
    exact hb
  obtain ⟨n, hn, p, hp, hphi, hpairs⟩ := h b hb' i hi (InstType.mapRegs_eq_phi.mpr htype)
  obtain ⟨p₀, hp₀, rfl⟩ := List.mem_map.mp hp
  refine ⟨n, hn, p₀, hp₀, hphi, fun q => ?_⟩
  have hq := hpairs q
  rw [cfgEdge_mapRegs, mapRegs_blockSuccessors, hasValue_mapRegs hf] at hq
  rw [← hf p₀.rId]
  exact hq

end MapRegs

/-- **Phis of a created function** after the conversion: one pair for each predecessor at whose
end the variable has a value. -/
theorem createFunction_phisFilled {creator creator' : IrCreator} {f : AstNode} {entry : ℕ}
    (hheap : HeapClosed creator.ctx)
    (hcreate : irCreatorCreateFunction creator f = some (creator', entry)) (doms : Dominators)
    (df : DomFrontiers) (hdoms : CorrectDoms creator'.ctx entry doms)
    (hdf : CorrectFrontiers creator'.ctx entry df) (fuel : ℕ) (ir' : Ir)
    (hrun : ssaConvert doms df fuel creator'.ctx entry = some ir') :
    ∃ blockInfo vm s, analyzeBlocks creator'.ctx doms = some (blockInfo, vm) ∧
      placePhis doms df fuel creator'.ctx blockInfo vm = some s ∧
      PhisFilled creator'.ctx entry doms s ir' := by
  obtain ⟨hheap', hform⟩ := createFunction_form hheap hcreate
  obtain ⟨blockInfo₁, vm₁, s₁, hanalyze, hplace, hfilled⟩ := ssaConvert_phisFilled
    (hheap'.mapRegs (f := reg32)) hdoms.mapRegs (hform.ssaFunction intReg_reg32) hform.phi.mapRegs
    hdf.mapRegs.reachable (ssaConvert_reg32 hrun)
  rw [mapRegs_analyzeBlocks creator'.ctx toInt_reg32] at hanalyze
  obtain ⟨⟨blockInfo, vm⟩, hanalyze', heq⟩ := Option.map_eq_some_iff.mp hanalyze
  obtain ⟨rfl, rfl⟩ := Prod.mk.inj heq
  rw [mapRegs_placePhis creator'.ctx toInt_reg32] at hplace
  obtain ⟨s, hplace', rfl⟩ := Option.map_eq_some_iff.mp hplace
  exact ⟨blockInfo, vm, s, hanalyze', hplace', hfilled.of_mapRegs toInt_reg32⟩

/-! ## A variable in a loop -/

/-- `while (1) { int64 v = v; }`, with an empty name for the variable. -/
def selfInit : Statements :=
  .whileDo (.number 1) (.declare .KW_INT64 .ASSIGN [] (.var []) .done) .done

/-- The dominators of its blocks: the loop has the head `1` and the body `2`. -/
def selfInitChain : ℕ → List ℕ
  | 0 => [0]
  | 1 => [0, 1]
  | 2 => [0, 1, 2]
  | _ => [0, 1, 3]

/-- The analyses and the conversion of this function. -/
theorem selfInit_runs : ∃ r, irCreatorCreateFunction (irCreatorInit irContextInit)
      (functionAst [] .KW_VOID selfInit) = some r ∧ r.2 = 0 ∧
    Chains r.1.ctx 0 4 selfInitChain ∧
    ∃ doms, dominatorsCompute r.1.ctx 20 0 = some doms ∧ ChainsDoms 0 4 selfInitChain doms ∧
    ∃ df, domfrontiersCompute r.1.ctx doms 20 = some df ∧
      ChainsFrontiers r.1.ctx 4 selfInitChain df ∧
    ∃ ir', ssaConvertStored doms df 20 r.1.ctx 0 = some ir' ∧
      1 ∈ blockSuccessors ir' 0 ∧ 5 ∈ ir'.blocks 1 ∧ (ir'.insts 5).type = .phi ∧
      pairCount ir' 5 0 = 0 := by
  decide +kernel

/-- **A phi without a pair for a predecessor.**  The load in the body of `selfInit` reads the phi
of the head, which has no pair for the entry: there the variable has no value. -/
theorem createFunction_phi_incomplete : ∃ creator', irCreatorCreateFunction
      (irCreatorInit irContextInit) (functionAst [] .KW_VOID selfInit) = some (creator', 0) ∧
    ∃ doms, dominatorsCompute creator'.ctx 20 0 = some doms ∧ CorrectDoms creator'.ctx 0 doms ∧
    ∃ df, domfrontiersCompute creator'.ctx doms 20 = some df ∧
      CorrectFrontiers creator'.ctx 0 df ∧
    ∃ ir', ssaConvertStored doms df 20 creator'.ctx 0 = some ir' ∧
      ¬ ∀ b, Reachable (cfgEdge ir') 0 b → ∀ i ∈ ir'.blocks b, (ir'.insts i).type = .phi →
        PhiPairs ir' 0 (fun _ => True) b i := by
  obtain ⟨⟨creator', entry⟩, hcreate, rfl, hchains, doms, hdoms, hcheck, df, hdf, hfrontiers, ir',
    hrun, hedge, hmem, htype, hcount⟩ := selfInit_runs
  refine ⟨creator', hcreate, doms, hdoms, hchains.correctDoms hcheck, df, hdf,
    hchains.correctFrontiers hfrontiers, ir', hrun, fun hall => ?_⟩
  have hone := (hall 1 (Reachable.root.step hedge) 5 hmem htype 0).1 ⟨.root, hedge, trivial⟩
  rw [hcount] at hone
  cases hone
