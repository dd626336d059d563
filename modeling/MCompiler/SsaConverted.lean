/-
# The converted function

`ssaConvert_converted` puts the three steps and the removal of unused phis together: if every
load finds a value, `ssa_convert` ends, and `Converted` relates its result to the
function it started with.
-/
import MCompiler.SsaPlacement

open FlowGraph

/-! ## Removing unused phis -/

/-- A phi without uses. -/
def Unused (ir : Ir) (l : List PhiInfo) (i : ℕ) : Prop :=
  (∃ p ∈ l, p.phiInst = i) ∧ ir.uses (.inst i) = []

instance (ir : Ir) (l : List PhiInfo) (i : ℕ) : Decidable (Unused ir l i) :=
  inferInstanceAs (Decidable (_ ∧ _))

/-- Only instructions have left their blocks. -/
structure BlocksOnly (ir ir' : Ir) : Prop where
  insts : ir'.insts = ir.insts
  uses : ir'.uses = ir.uses
  consts : ir'.consts = ir.consts
  instCount : ir'.instCount = ir.instCount
  blockCount : ir'.blockCount = ir.blockCount
  constCount : ir'.constCount = ir.constCount

theorem BlocksOnly.refl (ir : Ir) : BlocksOnly ir ir := ⟨rfl, rfl, rfl, rfl, rfl, rfl⟩

theorem BlocksOnly.trans {ir₁ ir₂ ir₃ : Ir} (h₁ : BlocksOnly ir₁ ir₂) (h₂ : BlocksOnly ir₂ ir₃) :
    BlocksOnly ir₁ ir₃ where
  insts := h₂.insts.trans h₁.insts
  uses := h₂.uses.trans h₁.uses
  consts := h₂.consts.trans h₁.consts
  instCount := h₂.instCount.trans h₁.instCount
  blockCount := h₂.blockCount.trans h₁.blockCount
  constCount := h₂.constCount.trans h₁.constCount

section Remove

variable (ir : Ir)

/-- **One phi.** -/
theorem removePhi_spec (hnodup : ∀ b, (ir.blocks b).Nodup)
    (hparent : ∀ b, ∀ i ∈ ir.blocks b, (ir.insts i).parent = b) (p : PhiInfo) :
    BlocksOnly ir (removePhi ir p) ∧
      ∀ b, (removePhi ir p).blocks b = (ir.blocks b).filter fun i => ¬ Unused ir [p] i := by
  have hunused : ∀ i, Unused ir [p] i ↔ p.phiInst = i ∧ ir.uses (.inst i) = [] := by
    intro i
    unfold Unused
    simp
  unfold removePhi
  by_cases huse : valueHasUse ir (.inst p.phiInst) = true
  · rw [if_pos huse]
    refine ⟨.refl ir, fun b => (List.filter_eq_self.mpr fun i _ => ?_).symm⟩
    unfold valueHasUse at huse
    rw [decide_eq_true_eq, hunused]
    rintro ⟨rfl, hnil⟩
    simp [hnil] at huse
  · rw [if_neg huse]
    have hnil : ir.uses (.inst p.phiInst) = [] := by
      unfold valueHasUse at huse
      simpa using huse
    refine ⟨⟨rfl, rfl, rfl, rfl, rfl, rfl⟩, fun b => ?_⟩
    show Function.update ir.blocks (ir.insts p.phiInst).parent _ b = _
    by_cases hb : b = (ir.insts p.phiInst).parent
    · subst hb
      rw [Function.update_self, (hnodup _).erase_eq_filter]
      apply List.filter_congr
      intro i _
      rw [Bool.eq_iff_iff, bne_iff_ne, decide_eq_true_eq, hunused]
      constructor
      · exact fun hne h => hne h.1.symm
      · rintro hnot rfl
        exact hnot ⟨rfl, hnil⟩
    · rw [Function.update_of_ne hb]
      symm
      rw [List.filter_eq_self]
      intro i hi
      rw [decide_eq_true_eq, hunused]
      rintro ⟨rfl, -⟩
      exact hb (hparent b _ hi).symm

/-- **The phis of a list.** -/
theorem removePhis_list (hnodup : ∀ b, (ir.blocks b).Nodup)
    (hparent : ∀ b, ∀ i ∈ ir.blocks b, (ir.insts i).parent = b) (l : List PhiInfo) :
    BlocksOnly ir (l.foldl removePhi ir) ∧
      ∀ b, (l.foldl removePhi ir).blocks b = (ir.blocks b).filter fun i => ¬ Unused ir l i := by
  induction l using List.reverseRecOn with
  | nil =>
      refine ⟨.refl ir, fun b => (List.filter_eq_self.mpr fun i _ => ?_).symm⟩
      rw [decide_eq_true_eq]
      rintro ⟨⟨p, hp, -⟩, -⟩
      cases hp
  | append_singleton l p ih =>
      obtain ⟨honly, hblocks⟩ := ih
      rw [List.foldl_append]
      obtain ⟨honly', hblocks'⟩ := removePhi_spec (l.foldl removePhi ir)
        (fun b => by
          rw [hblocks]
          exact (hnodup b).filter _)
        (fun b i hi => by
          rw [honly.insts]
          rw [hblocks] at hi
          exact hparent b i (List.mem_of_mem_filter hi)) p
      refine ⟨honly.trans honly', fun b => (hblocks' b).trans ?_⟩
      rw [hblocks, List.filter_filter]
      apply List.filter_congr
      intro i _
      rw [Bool.eq_iff_iff, Bool.and_eq_true, decide_eq_true_eq, decide_eq_true_eq,
        decide_eq_true_eq, ← not_or]
      unfold Unused
      rw [honly.uses, ← or_and_right]
      simp [or_and_right, exists_or, or_comm]

end Remove

/-! ## The whole conversion -/

/-- `ir'` comes from `ir`: phis are put in front, blocks are renamed, and phis without uses
are removed. -/
structure Converted (ir : Ir) (entry : ℕ) (phis : ℕ → List PhiInfo) (r : Renaming)
    (done : List ℕ) (pushed : List PhiOperand) (mid mid' ir' : Ir) : Prop where
  filled : Filled ir phis mid
  inside : ∀ b, ∀ p ∈ phis b, Reachable (cfgEdge ir) entry b
  distinct : ∀ b, (phis b).Pairwise fun p q => toInt p.rId ≠ toInt q.rId
  intReg : ∀ b, ∀ p ∈ phis b, IntReg p.rId
  input : ∃ doms, RenameInput mid entry phis doms
  renamed : Renamed mid entry phis (Reachable (cfgEdge mid) entry) r done pushed mid'
  only : BlocksOnly mid' ir'
  blocks : ∀ b, ir'.blocks b = (mid'.blocks b).filter fun i => ¬ Unused mid' (phis b) i

section Convert

variable {ir : Ir} {entry : ℕ} {doms : Dominators} {df : DomFrontiers}
  {blockInfo : ℕ → BlockInfo} {vm : VariableMap} {phis : ℕ → List PhiInfo} {s : PlaceState}

/-- The registers of the phis are ints. -/
theorem Placed.intReg {k : ℕ} (h : Placed ir entry doms df blockInfo vm k phis s)
    (hdoms : CorrectDoms ir entry doms) (hform : LoadAssignForm ir entry)
    (han : Analyzed ir doms blockInfo vm) (b : ℕ) (p : PhiInfo) (hp : p ∈ phis b) :
    IntReg p.rId := by
  obtain ⟨m, -, -, rInfo, hr, hrId⟩ := h.reg b p hp
  rw [← hrId]
  exact han.regs.intReg hdoms hform hr

/-- The stacks are there, and they are empty. -/
theorem Analyzed.tops (han : Analyzed ir doms blockInfo vm) : vm.tops = fun _ => none := by
  funext a
  unfold VariableMap.tops getLastValueUnsafe
  split
  · cases hr : vm.regs (toInt a) with
    | none => rfl
    | some rInfo =>
        rw [Option.bind_some, han.regs.stack _ rInfo hr]
        rfl
  · rfl

theorem Placed.has {k : ℕ} (h : Placed ir entry doms df blockInfo vm k phis s)
    (hheap : HeapOk ir) (hdoms : CorrectDoms ir entry doms) (han : Analyzed ir doms blockInfo vm)
    (b : ℕ) (hb : Reachable (cfgEdge ir) entry b) :
    (∀ i ∈ s.ir.blocks b, ∀ a, (s.ir.insts i).type = .assignVar a → vm.Has a) ∧
      ∀ p ∈ phis b, vm.Has p.rId := by
  constructor
  · intro i hi a ha
    have hib := h.filled.not_phi hi (by rw [ha]; exact InstType.noConfusion)
    rw [h.filled.insts_of_mem hheap hib] at ha
    obtain ⟨rInfo, hr, -⟩ := han.regs.has b ((hdoms.mem b).mpr hb) i hib a (by rw [ha]; rfl)
    unfold VariableMap.Has
    rw [hr]
    exact Option.some_ne_none rInfo
  · intro p hp
    obtain ⟨m, -, -, rInfo, hr, -⟩ := h.reg b p hp
    unfold VariableMap.Has
    rw [hr]
    exact Option.some_ne_none rInfo

/-- The lists of a block after phis have been placed. -/
theorem Placed.info_eq {k : ℕ} (h : Placed ir entry doms df blockInfo vm k phis s)
    (hheap : HeapOk ir) (han : Analyzed ir doms blockInfo vm) (n b : ℕ)
    (hn : doms.postorder[n]? = some b) :
    (s.blockInfo n).phiList = phis b ∧
      (s.blockInfo n).loadAssigns = loadAssigns s.ir (s.ir.blocks b) ∧
      (s.blockInfo n).isRenamed = false := by
  have hblock := han.info n b hn
  rw [h.info n b hn]
  refine ⟨rfl, ?_, hblock.isRenamed⟩
  obtain ⟨l, hperm, hl⟩ := h.filled.blocks b
  have hphi : loadAssigns s.ir l = [] := by
    apply List.filter_eq_nil_iff.mpr
    intro i hi
    obtain ⟨p, hp, rfl⟩ := List.mem_map.mp (hperm.mem_iff.mp hi)
    rw [(h.filled.phi b p hp).2.2.1]
    exact Bool.false_ne_true
  rw [hl, loadAssigns_append, hphi, List.nil_append]
  show (blockInfo n).loadAssigns = _
  rw [hblock.collected]
  apply List.filter_congr
  intro i hi
  rw [h.filled.insts_of_mem hheap hi]

/-- The last loop of `ssa_convert`, on the blocks that are listed. -/
theorem removePhis_spec {mid mid' : Ir} (hdoms : CorrectDoms ir entry doms)
    (hheap : HeapOk mid) {blockInfo : ℕ → BlockInfo}
    (hinfo : ∀ n b : ℕ, doms.postorder[n]? = some b → (blockInfo n).phiList = phis b)
    (hmem : ∀ b, ∀ p ∈ phis b, p.phiInst ∈ mid.blocks b)
    (hinside : ∀ b, ∀ p ∈ phis b, Reachable (cfgEdge ir) entry b)
    (hblocks : ∀ b, (mid'.blocks b).Sublist (mid.blocks b))
    (hparent : ∀ i, (mid'.insts i).parent = (mid.insts i).parent) :
    BlocksOnly mid' (removePhis blockInfo doms.elementCount mid') ∧
      ∀ b, (removePhis blockInfo doms.elementCount mid').blocks b =
        (mid'.blocks b).filter fun i => ¬ Unused mid' (phis b) i := by
  have hfold : removePhis blockInfo doms.elementCount mid' =
      ((List.range doms.elementCount).flatMap fun n => (blockInfo n).phiList).foldl
        removePhi mid' := by
    rw [List.foldl_flatMap]
    rfl
  obtain ⟨honly, hres⟩ := removePhis_list mid'
    (fun b => (hheap.nodup b).sublist (hblocks b))
    (fun b i hi => by
      rw [hparent]
      exact hheap.parent b i ((hblocks b).subset hi))
    ((List.range doms.elementCount).flatMap fun n => (blockInfo n).phiList)
  rw [hfold]
  refine ⟨honly, fun b => (hres b).trans ?_⟩
  apply List.filter_congr
  intro i hi
  have hib := (hblocks b).subset hi
  rw [Bool.eq_iff_iff, decide_eq_true_eq, decide_eq_true_eq, not_iff_not]
  refine and_congr ?_ Iff.rfl
  constructor
  · rintro ⟨p, hp, rfl⟩
    obtain ⟨n, hn, hp⟩ := List.mem_flatMap.mp hp
    rw [List.mem_range, hdoms.count] at hn
    rw [hinfo n _ (List.getElem?_eq_getElem hn)] at hp
    -- the phi is in the block of its list
    rw [hheap.block_unique hib (hmem _ p hp)]
    exact ⟨p, hp, rfl⟩
  · rintro ⟨p, hp, rfl⟩
    obtain ⟨n, hn⟩ := List.mem_iff_getElem?.mp ((hdoms.mem b).mpr (hinside b p hp))
    refine ⟨p, List.mem_flatMap.mpr ⟨n, ?_, ?_⟩, rfl⟩
    · rw [List.mem_range, hdoms.count]
      exact (List.getElem?_eq_some_iff.mp hn).1
    · rw [hinfo n b hn]
      exact hp

/-- **`ssa_convert`** ends, unless a load finds no value among the phis that are placed. -/
theorem ssaConvert_cases (hheap : HeapOk ir) (hdoms : CorrectDoms ir entry doms)
    (hform : SsaFunction ir entry)
    (hdf : ∀ x, Reachable (cfgEdge ir) entry x → ∀ y ∈ domfrontiersGet df x,
      Reachable (cfgEdge ir) entry y) :
    ∃ bound, ∀ fuel, bound ≤ fuel → ∃ blockInfo vm phis s,
      Analyzed ir doms blockInfo vm ∧
      analyzeBlocks ir doms = some (blockInfo, vm) ∧
      Placed ir entry doms df blockInfo vm vm.list.length phis s ∧
      placePhis doms df fuel ir blockInfo vm = some s ∧
      ((∃ r done pushed mid' ir', ssaConvert doms df fuel ir entry = some ir' ∧
        Converted ir entry phis r done pushed s.ir mid' ir') ∨
      (ssaConvert doms df fuel ir entry = none ∧ ¬ LoadsSupplied ir entry phis)) := by
  obtain ⟨blockInfo, vm, hrun, han⟩ := analyzeBlocks_spec hheap hdoms.nodup hdoms.count
  refine ⟨doms.elementCount + 1, fun fuel hfuel => ?_⟩
  obtain ⟨phis, s, hplace, hplaced⟩ := placePhis_spec hheap hdoms hform.toLoadAssignForm han hdf
    (Nat.lt_of_succ_le hfuel)
  refine ⟨blockInfo, vm, phis, s, han, hrun, hplaced, hplace, ?_⟩
  have hintReg := hplaced.intReg hdoms hform.toLoadAssignForm han
  have hinput := hplaced.filled.renameForm hheap hdoms hform hintReg
  have hcfg := hplaced.filled.cfgEdge_eq hheap
  have hconvert : ssaConvert doms df fuel ir entry =
      (ssaRename doms fuel ⟨s.ir, s.blockInfo, vm⟩ entry).map
        fun s' => removePhis s'.blockInfo doms.elementCount s'.ir := by
    unfold ssaConvert
    rw [hrun, Option.bind_eq_bind, Option.bind_some]
    dsimp only
    rw [hplace, Option.bind_eq_bind, Option.bind_some]
    cases ssaRename doms fuel ⟨s.ir, s.blockInfo, vm⟩ entry <;> rfl
  rw [hconvert]
  rcases ssaRename_renamed hinput
    (hplaced.info_eq hheap han)
    (fun c hc => hplaced.has hheap hdoms han c (hcfg ▸ hc)) han.tops
    (Nat.lt_of_succ_le hfuel) with
    ⟨r, done, pushed, s', hrename, hrenamed, -, hinfo⟩ | ⟨hnone, hnot⟩
  · obtain ⟨honly, hblocks⟩ := removePhis_spec hdoms hinput.heap
      (fun n b hn => (hinfo n b hn).1)
      (fun b p hp => hplaced.filled.mem_blocks.mpr (.inl ⟨p, hp, rfl⟩)) hplaced.inside
      (fun b => by
        rw [hrenamed.rewritten.blocks]
        exact List.filter_sublist)
      hrenamed.rewritten.parent
    rw [hrename]
    exact .inl ⟨r, done, pushed, s'.ir, _, rfl, hplaced.filled, hplaced.inside, hplaced.distinct,
      hintReg, ⟨doms, hinput, hrenamed.loadsSupplied hinput⟩, hrenamed, honly, hblocks⟩
  · rw [hnone]
    exact .inr ⟨rfl, fun hsupplied => hnot (hplaced.filled.loadsSupplied hheap hsupplied)⟩

/-- **`ssa_convert`** ends if every load finds a value among the phis that are placed. -/
theorem ssaConvert_converted (hheap : HeapOk ir) (hdoms : CorrectDoms ir entry doms)
    (hform : SsaFunction ir entry)
    (hdf : ∀ x, Reachable (cfgEdge ir) entry x → ∀ y ∈ domfrontiersGet df x,
      Reachable (cfgEdge ir) entry y)
    (hsupplied : ∀ blockInfo vm phis s, Analyzed ir doms blockInfo vm →
      Placed ir entry doms df blockInfo vm vm.list.length phis s → LoadsSupplied ir entry phis) :
    ∃ bound, ∀ fuel, bound ≤ fuel → ∃ blockInfo vm phis s r done pushed mid' ir',
      Analyzed ir doms blockInfo vm ∧
      analyzeBlocks ir doms = some (blockInfo, vm) ∧
      Placed ir entry doms df blockInfo vm vm.list.length phis s ∧
      placePhis doms df fuel ir blockInfo vm = some s ∧
      ssaConvert doms df fuel ir entry = some ir' ∧
      Converted ir entry phis r done pushed s.ir mid' ir' := by
  obtain ⟨bound, hbound⟩ := ssaConvert_cases hheap hdoms hform hdf
  refine ⟨bound, fun fuel hfuel => ?_⟩
  obtain ⟨blockInfo, vm, phis, s, han, hrun, hplaced, hplace, hcases⟩ := hbound fuel hfuel
  rcases hcases with ⟨r, done, pushed, mid', ir', hconvert, hconverted⟩ | ⟨-, hnot⟩
  · exact ⟨blockInfo, vm, phis, s, r, done, pushed, mid', ir', han, hrun, hplaced, hplace,
      hconvert, hconverted⟩
  · exact absurd (hsupplied blockInfo vm phis s han hplaced) hnot

/-! ## More steps -/

theorem placeLoop_mono {i rId fuel fuel' : ℕ} (hle : fuel ≤ fuel') {s s' : PlaceState}
    (h : placeLoop doms df i rId fuel s = some s') :
    placeLoop doms df i rId fuel' s = some s' := by
  induction fuel generalizing fuel' s with
  | zero => cases h
  | succ fuel ih =>
      obtain ⟨fuel', rfl⟩ := Nat.exists_eq_add_of_le' (Nat.one_le_of_lt hle)
      unfold placeLoop at h ⊢
      split at h
      · exact h
      · obtain ⟨s₁, hs₁, hrest⟩ := Option.bind_eq_some_iff.mp h
        exact Option.bind_eq_some_iff.mpr ⟨s₁, hs₁, ih (Nat.le_of_succ_le_succ hle) hrest⟩

theorem placePhis_mono {fuel fuel' : ℕ} (hle : fuel ≤ fuel')
    (h : placePhis doms df fuel ir blockInfo vm = some s) :
    placePhis doms df fuel' ir blockInfo vm = some s := by
  refine Loop.foldlM_mono (fun s i s' hs' => ?_) _ h
  obtain ⟨key, hkey, hs'⟩ := Option.bind_eq_some_iff.mp hs'
  obtain ⟨var, hvar, hs'⟩ := Option.bind_eq_some_iff.mp hs'
  obtain ⟨s₁, hs₁, hs'⟩ := Option.bind_eq_some_iff.mp hs'
  exact Option.bind_eq_some_iff.mpr ⟨key, hkey, Option.bind_eq_some_iff.mpr ⟨var, hvar,
    Option.bind_eq_some_iff.mpr ⟨s₁, hs₁, placeLoop_mono hle hs'⟩⟩⟩

theorem ssaRename_mono {fuel fuel' : ℕ} (hle : fuel ≤ fuel') {s s' : RenameState} {b : ℕ}
    (h : ssaRename doms fuel s b = some s') : ssaRename doms fuel' s b = some s' := by
  induction fuel generalizing fuel' s s' b with
  | zero => cases h
  | succ fuel ih =>
      obtain ⟨fuel', rfl⟩ := Nat.exists_eq_add_of_le' (Nat.one_le_of_lt hle)
      unfold ssaRename at h ⊢
      obtain ⟨n, hn, h⟩ := Option.bind_eq_some_iff.mp h
      refine Option.bind_eq_some_iff.mpr ⟨n, hn, ?_⟩
      dsimp only at h ⊢
      split at h
      · rename_i hflag
        rw [if_pos hflag]
        exact h
      · rename_i hflag
        rw [if_neg hflag]
        obtain ⟨vm₁, hvm₁, h⟩ := Option.bind_eq_some_iff.mp h
        obtain ⟨s₂, hs₂, h⟩ := Option.bind_eq_some_iff.mp h
        obtain ⟨ir₃, hir₃, h⟩ := Option.bind_eq_some_iff.mp h
        obtain ⟨cs, hcs, h⟩ := Option.bind_eq_some_iff.mp h
        obtain ⟨s₄, hs₄, h⟩ := Option.bind_eq_some_iff.mp h
        refine Option.bind_eq_some_iff.mpr ⟨vm₁, hvm₁, Option.bind_eq_some_iff.mpr ⟨s₂, hs₂,
          Option.bind_eq_some_iff.mpr ⟨ir₃, hir₃, Option.bind_eq_some_iff.mpr ⟨cs, hcs,
            Option.bind_eq_some_iff.mpr ⟨s₄, ?_, h⟩⟩⟩⟩⟩
        exact Loop.foldlM_mono (fun s x s' => ih (Nat.le_of_succ_le_succ hle)) cs hs₄

/-- A conversion that ends does so with more steps too. -/
theorem ssaConvert_mono {fuel fuel' : ℕ} (hle : fuel ≤ fuel') {ir' : Ir}
    (h : ssaConvert doms df fuel ir entry = some ir') :
    ssaConvert doms df fuel' ir entry = some ir' := by
  unfold ssaConvert at h ⊢
  obtain ⟨⟨blockInfo, vm⟩, hrun, h⟩ := Option.bind_eq_some_iff.mp h
  obtain ⟨s, hs, h⟩ := Option.bind_eq_some_iff.mp h
  obtain ⟨s', hs', h⟩ := Option.bind_eq_some_iff.mp h
  exact Option.bind_eq_some_iff.mpr ⟨_, hrun, Option.bind_eq_some_iff.mpr ⟨s,
    placePhis_mono hle hs, Option.bind_eq_some_iff.mpr ⟨s', ssaRename_mono hle hs', h⟩⟩⟩

/-- **A conversion that ends.** -/
theorem converted_of_ssaConvert (hheap : HeapOk ir) (hdoms : CorrectDoms ir entry doms)
    (hform : SsaFunction ir entry)
    (hdf : ∀ x, Reachable (cfgEdge ir) entry x → ∀ y ∈ domfrontiersGet df x,
      Reachable (cfgEdge ir) entry y) {fuel : ℕ} {ir' : Ir}
    (h : ssaConvert doms df fuel ir entry = some ir') :
    ∃ blockInfo vm phis s r done pushed mid', Analyzed ir doms blockInfo vm ∧
      analyzeBlocks ir doms = some (blockInfo, vm) ∧
      Placed ir entry doms df blockInfo vm vm.list.length phis s ∧
      placePhis doms df fuel ir blockInfo vm = some s ∧
      Converted ir entry phis r done pushed s.ir mid' ir' := by
  obtain ⟨bound, hbound⟩ := ssaConvert_cases hheap hdoms hform hdf
  obtain ⟨blockInfo, vm, phis, s, han, hrun, hplaced, hplace, hcases⟩ :=
    hbound (max bound fuel) (le_max_left _ _)
  have hmore := ssaConvert_mono (le_max_right bound fuel) h
  rw [hmore] at hcases
  rcases hcases with ⟨r, done, pushed, mid', ir'', hconvert, hconverted⟩ | ⟨hnone, -⟩
  · obtain rfl := Option.some.inj hconvert
    refine ⟨blockInfo, vm, phis, s, r, done, pushed, mid', han, hrun, hplaced, ?_, hconverted⟩
    -- the phis that the fewer steps place
    unfold ssaConvert at h
    rw [hrun, Option.bind_eq_bind, Option.bind_some] at h
    obtain ⟨s₀, hs₀, -⟩ := Option.bind_eq_some_iff.mp h
    have hsame := (placePhis_mono (le_max_right bound fuel) hs₀).symm.trans hplace
    rw [← Option.some.inj hsame]
    exact hs₀
  · cases hnone

end Convert
