/-
# What the conversion leaves as it is

`ssaConvert_frame` : afterwards a reachable block has some of its new phis, and then its
instructions other than loads and assigns.  Operands that named a load name the value it
stands for, and nothing else changes (`InstConverted`).
-/
import MCompiler.SsaConverted
import MCompiler.SsaIteratedFrontier

open FlowGraph

/-- A load has an assign of its register before it: earlier in its block, or in a strict
dominator. -/
def LoadsDominated (ir : Ir) (entry : ℕ) : Prop :=
  ∀ b, Reachable (cfgEdge ir) entry b → ∀ pre i post a,
    ir.blocks b = pre ++ i :: post → (ir.insts i).type = .loadVar a →
      (∃ j ∈ pre, (ir.insts j).type = .assignVar a) ∨
        ∃ x, StrictlyDominates (cfgEdge ir) entry x b ∧
          ∃ j ∈ ir.blocks x, (ir.insts j).type = .assignVar a

theorem LoadsDominated.supplied {ir : Ir} {entry : ℕ} (h : LoadsDominated ir entry)
    (phis : ℕ → List PhiInfo) : LoadsSupplied ir entry phis := by
  intro b hb pre i post a hblock htype
  rcases h b hb pre i post a hblock htype with hassign | ⟨x, hx, hassign⟩
  · exact .inl hassign
  · exact .inr (.inr ⟨x, hx, .inl hassign⟩)

/-- An operand after the conversion: a load is replaced by a value that stays. -/
def OperandKept (ir ir' : Ir) : Option Value → Option Value → Prop
  | some (.inst j), o' =>
      ((∀ a, (ir.insts j).type ≠ .loadVar a) → o' = some (.inst j)) ∧
        ∀ a, (ir.insts j).type = .loadVar a → ∃ v, o' = some v ∧ Settled ir' v
  | o, o' => o' = o

/-- An instruction after the conversion. -/
structure InstConverted (ir ir' : Ir) (i : ℕ) : Prop where
  fields : ir'.insts i = { ir.insts i with uses := (ir'.insts i).uses }
  operands : List.Forall₂ (OperandKept ir ir') (ir.insts i).uses (ir'.insts i).uses

/-- A block after the conversion; `infos` are the phis that were made for it. -/
structure BlockConverted (ir ir' : Ir) (infos : List PhiInfo) (b : ℕ) : Prop where
  oneEach : (infos.map PhiInfo.rId).Nodup
  blocks : ∃ l : List ℕ, ir'.blocks b =
      l ++ (ir.blocks b).filter (fun i => ¬ (ir.insts i).type.isLoadAssign) ∧ l.Nodup ∧
    ∀ i ∈ l, ∃ p ∈ infos, p.phiInst = i ∧ ir.instCount ≤ i ∧ (ir'.insts i).type = .phi
  kept : ∀ i ∈ ir.blocks b, (ir.insts i).type.isLoadAssign = false → InstConverted ir ir' i
  gone : ∀ i ∈ ir'.blocks b, (ir'.insts i).type.isLoadAssign = false

section Renamed

variable {ir : Ir} {entry : ℕ} {phis : ℕ → List PhiInfo} {r : Renaming} {done : List ℕ}
  {pushed : List PhiOperand} {ir' : Ir} {doms : Dominators} {b i j : ℕ}

/-- Phis alone have operands pushed. -/
theorem Renamed.phiUses_eq_nil (h : Renamed ir entry phis (Reachable (cfgEdge ir) entry) r done
      pushed ir') (hinput : RenameForm ir entry phis doms) (hj : (ir.insts j).type ≠ .phi) :
    phiUses pushed j = [] := by
  rw [phiUses, List.flatMap_eq_nil_iff]
  intro e he
  rw [if_neg]
  rintro rfl
  obtain ⟨hW, x, hx, p, hpx, hphi, -⟩ := (h.mem_pushed e).mp he
  exact hj (hphi ▸ (hinput.phi x (hW.step hx) p hpx).2.2.1)

/-- The loads and assigns of a reachable block are removed. -/
theorem Renamed.mem_done_iff (h : Renamed ir entry phis (Reachable (cfgEdge ir) entry) r done
      pushed ir') (hb : Reachable (cfgEdge ir) entry b) (hi : i ∈ ir.blocks b) :
    i ∈ done ↔ (ir.insts i).type.isLoadAssign = true :=
  ⟨h.isLoadAssign_of_done, fun hla => (h.mem_done i).mpr ⟨b, hb, mem_loadAssigns.mpr ⟨hi, hla⟩⟩⟩

/-- The value of the result of an instruction that is no load. -/
theorem Renamed.value_eq (h : Renamed ir entry phis (Reachable (cfgEdge ir) entry) r done
      pushed ir') (hj : ∀ a, (ir.insts j).type ≠ .loadVar a) : r.value j = .inst j := by
  apply h.kept
  by_cases hdone : j ∈ done
  · rcases isLoadAssign_iff.mp (h.isLoadAssign_of_done hdone) with ⟨a, ha⟩ | hassign
    · exact absurd ha (hj a)
    · exact .inr hassign
  · exact .inl hdone

end Renamed

section Frame

variable {ir : Ir} {entry : ℕ} {phis : ℕ → List PhiInfo} {r : Renaming} {done : List ℕ}
  {pushed : List PhiOperand} {mid mid' ir' : Ir} {b i : ℕ}

/-- Phis alone have operands pushed. -/
theorem Converted.phiUses_eq_nil (h : Converted ir entry phis r done pushed mid mid' ir') {j : ℕ}
    (hj : (mid.insts j).type ≠ .phi) : phiUses pushed j = [] := by
  obtain ⟨doms, hinput⟩ := h.input
  exact h.renamed.phiUses_eq_nil hinput.toRenameForm hj

theorem Converted.type (h : Converted ir entry phis r done pushed mid mid' ir') (i : ℕ) :
    (ir'.insts i).type = (mid.insts i).type := by
  rw [h.only.insts, h.renamed.rewritten.type]

/-- The reachable blocks are those of the function. -/
theorem Converted.reachable_iff (h : Converted ir entry phis r done pushed mid mid' ir')
    (hheap : HeapOk ir) : Reachable (cfgEdge mid) entry b ↔ Reachable (cfgEdge ir) entry b := by
  rw [h.filled.cfgEdge_eq hheap]

/-- The loads and assigns of a reachable block are removed. -/
theorem Converted.mem_done_iff (h : Converted ir entry phis r done pushed mid mid' ir')
    (hheap : HeapOk ir) (hb : Reachable (cfgEdge ir) entry b) (hi : i ∈ ir.blocks b) :
    i ∈ done ↔ (ir.insts i).type.isLoadAssign = true := by
  rw [← h.filled.insts_of_mem hheap hi]
  exact h.renamed.mem_done_iff ((h.reachable_iff hheap).mpr hb) (h.filled.mem_blocks.mpr (.inr hi))

/-- Only loads and assigns are removed. -/
theorem Converted.isLoadAssign_of_done (h : Converted ir entry phis r done pushed mid mid' ir')
    (hi : i ∈ done) : (mid.insts i).type.isLoadAssign = true := h.renamed.isLoadAssign_of_done hi

/-- **The instructions of a block after renaming**: its phis, and the others but loads and
assigns. -/
theorem Filled.renamed_blocks (hfilled : Filled ir phis mid) (hheap : HeapOk ir)
    (h : Renamed mid entry phis (Reachable (cfgEdge mid) entry) r done pushed mid')
    (hb : Reachable (cfgEdge ir) entry b) :
    ∃ l : List ℕ, l.Perm ((phis b).map PhiInfo.phiInst) ∧ mid.blocks b = l ++ ir.blocks b ∧
      mid'.blocks b =
        l ++ (ir.blocks b).filter (fun i => ¬ (ir.insts i).type.isLoadAssign) := by
  obtain ⟨l, hperm, hl⟩ := hfilled.blocks b
  have hbmid : Reachable (cfgEdge mid) entry b := by
    rwa [hfilled.cfgEdge_eq hheap]
  -- phis are not removed by the renaming
  have hstay : l.filter (· ∉ done) = l := by
    rw [List.filter_eq_self]
    intro i hi
    rw [decide_eq_true_eq]
    intro hdone
    obtain ⟨p, hp, rfl⟩ := List.mem_map.mp (hperm.mem_iff.mp hi)
    have hla := h.isLoadAssign_of_done hdone
    rw [(hfilled.phi b p hp).2.2.1] at hla
    cases hla
  refine ⟨l, hperm, hl, ?_⟩
  rw [h.rewritten.blocks, hl, List.filter_append, hstay]
  congr 1
  apply List.filter_congr
  intro i hi
  rw [Bool.eq_iff_iff, decide_eq_true_eq, decide_eq_true_eq,
    h.mem_done_iff hbmid (hfilled.mem_blocks.mpr (.inr hi)), hfilled.insts_of_mem hheap hi]

/-- **The instructions of a block.** -/
theorem Converted.blocks_eq (h : Converted ir entry phis r done pushed mid mid' ir')
    (hheap : HeapOk ir) (hb : Reachable (cfgEdge ir) entry b) :
    ∃ l : List ℕ, l.Perm ((phis b).map PhiInfo.phiInst) ∧
      mid'.blocks b = l ++ (ir.blocks b).filter (fun i => ¬ (ir.insts i).type.isLoadAssign) ∧
      ir'.blocks b = (l.filter fun i => mid'.uses (.inst i) ≠ []) ++
        (ir.blocks b).filter (fun i => ¬ (ir.insts i).type.isLoadAssign) := by
  obtain ⟨l, hperm, -, hmid⟩ := h.filled.renamed_blocks hheap h.renamed hb
  have hphi : ∀ {i}, i ∈ l ↔ ∃ p ∈ phis b, p.phiInst = i := by
    intro i
    rw [hperm.mem_iff, List.mem_map]
  refine ⟨l, hperm, hmid, ?_⟩
  rw [h.blocks b, hmid, List.filter_append]
  congr 1
  · apply List.filter_congr
    intro i hi
    rw [Bool.eq_iff_iff, decide_eq_true_eq, decide_eq_true_eq]
    exact not_congr (and_iff_right (hphi.mp hi))
  · -- the others are no phis
    rw [List.filter_eq_self]
    intro i hi
    rw [decide_eq_true_eq]
    rintro ⟨⟨p, hp, rfl⟩, -⟩
    exact absurd (hheap.allocated b _ (List.mem_of_mem_filter hi))
      (Nat.not_lt.mpr (h.filled.phi b p hp).1)

/-- The value of the result of an instruction that is no load. -/
theorem Converted.value_eq (h : Converted ir entry phis r done pushed mid mid' ir') {j : ℕ}
    (hj : ∀ a, (mid.insts j).type ≠ .loadVar a) : r.value j = .inst j := h.renamed.value_eq hj

/-- **An instruction that stays.** -/
theorem Converted.instConverted (h : Converted ir entry phis r done pushed mid mid' ir')
    (hheap : HeapOk ir) (hform : SsaFunction ir entry) (hfree : PhiFree ir entry)
    (hb : Reachable (cfgEdge ir) entry b) (hi : i ∈ ir.blocks b) : InstConverted ir ir' i := by
  have hmid := h.filled.insts_of_mem hheap hi
  have hnophi : (ir.insts i).type ≠ .phi := hfree b hb i hi
  have huses : (ir'.insts i).uses = (ir.insts i).uses.map (Option.map (sub r.value)) := by
    rw [h.only.insts, h.renamed.rewritten.insts, h.phiUses_eq_nil (by rwa [hmid]), hmid,
      List.append_nil]
  refine ⟨?_, ?_⟩
  · rw [h.only.insts, h.renamed.rewritten.insts, hmid]
  · rw [huses, List.forall₂_map_right_iff, List.forall₂_same]
    intro o ho
    cases o with
    | none => rfl
    | some v =>
        cases v with
        | const c => rfl
        | block x => rfl
        | inst j =>
            obtain ⟨k, hk⟩ := List.mem_iff_getElem?.mp ho
            have hop : ir.operand ⟨i, k⟩ = some (.inst j) := by
              unfold Ir.operand
              dsimp only
              rw [hk]
              rfl
            -- the operand is the result of an instruction in a reachable block
            have hdef : ∃ x, Reachable (cfgEdge ir) entry x ∧ j ∈ ir.blocks x := by
              cases hform.operand b hb i hi hnophi k _ hop with
              | inst _ hdef =>
                  rcases hdef with ⟨pre, post, hblock, hj⟩ | ⟨x, hx, hj⟩
                  · refine ⟨b, hb, ?_⟩
                    rw [hblock]
                    exact List.mem_append_left _ hj
                  · exact ⟨x, hx.2.reachable hb, hj⟩
            obtain ⟨x, hx, hj⟩ := hdef
            have hjmid := h.filled.insts_of_mem hheap hj
            refine ⟨fun hno => ?_, fun a ha => ?_⟩
            · have hval := h.value_eq fun a ha => hno a (by rwa [hjmid] at ha)
              show some (r.value j) = some (.inst j)
              rw [hval]
            · have hdone := (h.mem_done_iff hheap hx hj).mpr (by rw [ha]; rfl)
              have hsettled := h.renamed.settled j hdone a (by rw [hjmid]; exact ha)
              refine ⟨r.value j, rfl, ?_⟩
              cases hval : r.value j with
              | const c => trivial
              | block x =>
                  rw [hval] at hsettled
                  exact hsettled
              | inst k =>
                  rw [hval] at hsettled
                  show (ir'.insts k).type.isLoadAssign = false
                  rw [h.type]
                  exact hsettled

/-- **A reachable block.** -/
theorem Converted.blockConverted (h : Converted ir entry phis r done pushed mid mid' ir')
    (hheap : HeapOk ir) (hform : SsaFunction ir entry) (hfree : PhiFree ir entry)
    (hb : Reachable (cfgEdge ir) entry b) : BlockConverted ir ir' (phis b) b := by
  obtain ⟨l, hperm, -, hblocks⟩ := h.blocks_eq hheap hb
  have hphi : ∀ i ∈ l, ∃ p ∈ phis b, p.phiInst = i ∧ ir.instCount ≤ i ∧
      (ir'.insts i).type = .phi := by
    intro i hi
    obtain ⟨p, hp, rfl⟩ := List.mem_map.mp (hperm.mem_iff.mp hi)
    obtain ⟨hge, -, htype, -⟩ := h.filled.phi b p hp
    exact ⟨p, hp, rfl, hge, by rw [h.type, htype]⟩
  refine ⟨?_, ⟨_, hblocks, (hperm.nodup_iff.mpr (h.filled.nodup b)).filter _,
    fun i hi => hphi i (List.mem_of_mem_filter hi)⟩,
    fun i hi _ => h.instConverted hheap hform hfree hb hi, fun i hi => ?_⟩
  · refine List.pairwise_map.mpr ((h.distinct b).imp fun {p q} hne heq => hne ?_)
    rw [heq]
  · rw [hblocks] at hi
    rcases List.mem_append.mp hi with hi | hi
    · obtain ⟨p, -, -, -, htype⟩ := hphi i (List.mem_of_mem_filter hi)
      rw [htype]
      rfl
    · obtain ⟨hi, hla⟩ := List.mem_filter.mp hi
      rw [h.type, h.filled.insts_of_mem hheap hi]
      simpa using hla

end Frame

/-- **`ssa_convert` changes nothing else.**  It ends, and each reachable block has phis, at
most one for a variable, and then its instructions other than loads and assigns. -/
theorem ssaConvert_frame (ir : Ir) (entry : ℕ) (doms : Dominators) (df : DomFrontiers)
    (hheap : HeapOk ir) (hdoms : CorrectDoms ir entry doms) (hform : SsaFunction ir entry)
    (hfree : PhiFree ir entry) (hload : LoadsDominated ir entry)
    (hdf : ∀ x, Reachable (cfgEdge ir) entry x → ∀ y ∈ domfrontiersGet df x,
      Reachable (cfgEdge ir) entry y) :
    ∃ bound, ∀ fuel, bound ≤ fuel → ∃ blockInfo vm s ir',
      analyzeBlocks ir doms = some (blockInfo, vm) ∧
      placePhis doms df fuel ir blockInfo vm = some s ∧
      ssaConvert doms df fuel ir entry = some ir' ∧
      ∀ b, Reachable (cfgEdge ir) entry b → ∃ n : ℕ, doms.postorder[n]? = some b ∧
        BlockConverted ir ir' (s.blockInfo n).phiList b := by
  obtain ⟨bound, h⟩ := ssaConvert_converted hheap hdoms hform hdf
    fun _ _ phis _ _ _ => hload.supplied phis
  refine ⟨bound, fun fuel hfuel => ?_⟩
  obtain ⟨blockInfo, vm, phis, s, r, done, pushed, mid', ir', han, hrun, hplaced, hplace, hconvert,
    hconverted⟩ := h fuel hfuel
  refine ⟨blockInfo, vm, s, ir', hrun, hplace, hconvert, fun b hb => ?_⟩
  obtain ⟨n, hn, -⟩ := hdoms.exists_number hb
  refine ⟨n, hn, ?_⟩
  rw [(hplaced.info_eq hheap han n b hn).1]
  exact hconverted.blockConverted hheap hform hfree hb

/-! ## Functions that are checked -/

/-- The register of a load is assigned before. -/
def ChainsLoad (ir : Ir) (chain : ℕ → List ℕ) (b i : ℕ) : Prop :=
  ∀ a ∈ (ir.insts i).type.rId, (ir.insts i).type = .loadVar a →
    ChainsBefore ir chain b i fun j => (ir.insts j).type = .assignVar a

instance (ir : Ir) (chain : ℕ → List ℕ) (b i : ℕ) : Decidable (ChainsLoad ir chain b i) :=
  inferInstanceAs (Decidable (∀ a ∈ (ir.insts i).type.rId, (ir.insts i).type = .loadVar a →
    ChainsBefore ir chain b i fun j => (ir.insts j).type = .assignVar a))

section Chains

variable {ir : Ir} {entry n : ℕ} {chain : ℕ → List ℕ}

theorem Chains.phiFree (h : Chains ir entry n chain)
    (hphi : ∀ b < n, ∀ i ∈ ir.blocks b, (ir.insts i).type ≠ .phi) : PhiFree ir entry :=
  fun b hb i hi => hphi b (h.reachable_iff.mp hb) i hi

theorem Chains.loadsDominated (h : Chains ir entry n chain) (hheap : HeapOk ir)
    (hload : ∀ b < n, ∀ i ∈ ir.blocks b, ChainsLoad ir chain b i) : LoadsDominated ir entry := by
  intro b hb pre i post a hblock htype
  have hbn := h.reachable_iff.mp hb
  have hi : i ∈ ir.blocks b := mem_of_split hblock
  rcases hload b hbn i hi a (by rw [htype]; rfl) htype with ⟨j, hj, hja⟩ | ⟨x, hx, hne, hassign⟩
  · obtain ⟨post', hpost⟩ := exists_takeWhile_append hi
    obtain ⟨hpre, -⟩ := split_unique (hheap.nodup b) hblock hpost
    rw [hpre]
    exact .inl ⟨j, hj, hja⟩
  · exact .inr ⟨x, h.strictlyDominates hbn hx hne, hassign⟩

end Chains

/-! ## The function with two joins -/

theorem phiFree_nestedJoins : PhiFree nestedJoins 0 := chains_nestedJoins.phiFree (by decide)

theorem loadsDominated_nestedJoins : LoadsDominated nestedJoins 0 :=
  chains_nestedJoins.loadsDominated heapOk_nestedJoins (by decide)
