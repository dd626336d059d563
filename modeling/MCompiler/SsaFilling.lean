/-
# Phis at the tops of blocks

`Filled ir phis ir'` : compared with `ir`, the blocks of `ir'` start with new phis without
operands, those of `phis`.  This keeps what is assumed of a function
(`Filled.renameForm`), and `block_info_getOrCreatePhi` adds one phi, unless there is one
(`blockInfoGetOrCreatePhi_spec`).
-/
import MCompiler.SsaAnalyze

open FlowGraph

/-- `ir` with the phis `phis` in front of the instructions of its blocks. -/
structure Filled (ir : Ir) (phis : ℕ → List PhiInfo) (ir' : Ir) : Prop where
  insts : ∀ i < ir.instCount, ir'.insts i = ir.insts i
  blocks : ∀ b, ∃ l, l.Perm ((phis b).map PhiInfo.phiInst) ∧ ir'.blocks b = l ++ ir.blocks b
  phi : ∀ b, ∀ p ∈ phis b, ir.instCount ≤ p.phiInst ∧ p.phiInst < ir'.instCount ∧
    (ir'.insts p.phiInst).type = .phi ∧ (ir'.insts p.phiInst).parent = b
  nodup : ∀ b, ((phis b).map PhiInfo.phiInst).Nodup
  unused : ∀ i, ir.instCount ≤ i → (ir'.insts i).uses = []
  uses : ir'.uses = ir.uses
  consts : ir'.consts = ir.consts
  le : ir.instCount ≤ ir'.instCount
  blockCount : ir'.blockCount = ir.blockCount
  constCount : ir'.constCount = ir.constCount

/-- No reachable block has a phi. -/
def PhiFree (ir : Ir) (entry : ℕ) : Prop :=
  ∀ b, Reachable (cfgEdge ir) entry b → ∀ i ∈ ir.blocks b, (ir.insts i).type ≠ .phi

theorem Filled.start {ir : Ir} (h : HeapOk ir) : Filled ir (fun _ => []) ir where
  insts _ _ := rfl
  blocks _ := ⟨[], .nil, rfl⟩
  phi _ _ hp := absurd hp List.not_mem_nil
  nodup _ := List.nodup_nil
  unused := h.fresh
  uses := rfl
  consts := rfl
  le := le_rfl
  blockCount := rfl
  constCount := rfl

section Filled

variable {ir ir' : Ir} {phis : ℕ → List PhiInfo} {entry : ℕ} {doms : Dominators} {b i : ℕ}

/-! ## The objects -/

theorem Filled.operand (h : Filled ir phis ir') (hheap : HeapOk ir) (u : Use) :
    ir'.operand u = ir.operand u := by
  unfold Ir.operand
  by_cases hu : u.inst < ir.instCount
  · rw [h.insts _ hu]
  · rw [h.unused _ (Nat.le_of_not_lt hu), hheap.fresh _ (Nat.le_of_not_lt hu)]

/-- The instructions of a block: a phi of it, or one that it had. -/
theorem Filled.mem_blocks (h : Filled ir phis ir') :
    i ∈ ir'.blocks b ↔ (∃ p ∈ phis b, p.phiInst = i) ∨ i ∈ ir.blocks b := by
  obtain ⟨l, hperm, hl⟩ := h.blocks b
  rw [hl, List.mem_append, hperm.mem_iff, List.mem_map]

theorem Filled.insts_of_mem (h : Filled ir phis ir') (hheap : HeapOk ir) (hi : i ∈ ir.blocks b) :
    ir'.insts i = ir.insts i := h.insts i (hheap.allocated b i hi)

theorem Filled.heapOk (h : Filled ir phis ir') (hheap : HeapOk ir) : HeapOk ir' := by
  refine ⟨⟨fun v u => ?_, fun v => ?_⟩, fun i hi => ?_, fun b => ?_, fun b i hi => ?_,
    fun b i hi => ?_, fun u i hu => ?_⟩
  · rw [h.uses, h.operand hheap]
    exact hheap.uses.mem v u
  · rw [h.uses]
    exact hheap.uses.nodup v
  · exact h.unused i (h.le.trans hi)
  · obtain ⟨l, hperm, hl⟩ := h.blocks b
    rw [hl]
    refine List.nodup_append.mpr ⟨hperm.nodup_iff.mpr (h.nodup b), hheap.nodup b,
      fun x hx y hy hxy => ?_⟩
    subst hxy
    obtain ⟨p, hp, rfl⟩ := List.mem_map.mp (hperm.mem_iff.mp hx)
    exact absurd (hheap.allocated b _ hy) (Nat.not_lt.mpr (h.phi b p hp).1)
  · rcases h.mem_blocks.mp hi with ⟨p, hp, rfl⟩ | hi
    · exact (h.phi b p hp).2.2.2
    · rw [h.insts_of_mem hheap hi]
      exact hheap.parent b i hi
  · rcases h.mem_blocks.mp hi with ⟨p, hp, rfl⟩ | hi
    · exact (h.phi b p hp).2.1
    · exact (hheap.allocated b i hi).trans_le h.le
  · rw [h.operand hheap] at hu
    exact (hheap.operand u i hu).trans_le h.le

/-! ## The control flow graph -/

theorem Filled.blockSuccessors_eq (h : Filled ir phis ir') (hheap : HeapOk ir) (b : ℕ) :
    blockSuccessors ir' b = blockSuccessors ir b := by
  obtain ⟨l, hperm, hl⟩ := h.blocks b
  have hphi : ∀ i ∈ l, (ir'.insts i).type = .phi := by
    intro i hi
    obtain ⟨p, hp, rfl⟩ := List.mem_map.mp (hperm.mem_iff.mp hi)
    exact (h.phi b p hp).2.2.1
  unfold blockSuccessors blockLastInstruction
  rw [hl]
  rcases List.eq_nil_or_concat (ir.blocks b) with hnil | ⟨l', i, hl'⟩
  · rw [hnil, List.append_nil]
    rcases List.eq_nil_or_concat l with rfl | ⟨l₀, j, rfl⟩
    · rfl
    · rw [List.concat_eq_append] at hphi ⊢
      rw [List.getLast?_append, List.getLast?_singleton, List.getLast?_nil]
      dsimp only [Option.some_or]
      rw [hphi j (List.mem_append_right _ List.mem_cons_self)]
  · have hi : i ∈ ir.blocks b := by
      rw [hl', List.concat_eq_append]
      exact List.mem_append_right _ List.mem_cons_self
    rw [hl', List.concat_eq_append, ← List.append_assoc, List.getLast?_append,
      List.getLast?_append, List.getLast?_singleton]
    dsimp only [Option.some_or]
    rw [h.insts_of_mem hheap hi, List.getLast?_append, List.getLast?_singleton]
    rfl

theorem Filled.cfgEdge_eq (h : Filled ir phis ir') (hheap : HeapOk ir) :
    cfgEdge ir' = cfgEdge ir := by
  funext a b
  show (b ∈ blockSuccessors ir' a) = (b ∈ blockSuccessors ir a)
  rw [h.blockSuccessors_eq hheap]

/-- The dominators stay. -/
theorem Filled.correctDoms (h : Filled ir phis ir') (hheap : HeapOk ir)
    (hdoms : CorrectDoms ir entry doms) : CorrectDoms ir' entry doms := by
  obtain ⟨⟨hcount, hmem, hentry, hidom⟩, hnodup, hnumber, hchilds⟩ := hdoms
  rw [← h.cfgEdge_eq hheap] at hmem hidom hchilds
  exact ⟨⟨hcount, hmem, hentry, hidom⟩, hnodup, hnumber, hchilds⟩

/-! ## The function -/

theorem Filled.not_phi (h : Filled ir phis ir') (hi : i ∈ ir'.blocks b)
    (htype : (ir'.insts i).type ≠ .phi) : i ∈ ir.blocks b := by
  rcases h.mem_blocks.mp hi with ⟨p, hp, rfl⟩ | hi
  · exact absurd (h.phi b p hp).2.2.1 htype
  · exact hi

/-- A position behind the phis. -/
theorem Filled.split (h : Filled ir phis ir') (hi : i ∈ ir.blocks b) {pre post : List ℕ}
    (hheap : HeapOk ir) (hblock : ir'.blocks b = pre ++ i :: post) :
    ∃ l pre', l.Perm ((phis b).map PhiInfo.phiInst) ∧ pre = l ++ pre' ∧
      ir.blocks b = pre' ++ i :: post := by
  obtain ⟨l, hperm, hl⟩ := h.blocks b
  obtain ⟨p, q, hsplit⟩ := List.append_of_mem hi
  have hnodup := (h.heapOk hheap).nodup b
  have hblock' : ir'.blocks b = (l ++ p) ++ i :: q := by
    rw [hl, hsplit, List.append_assoc]
  obtain ⟨rfl, rfl⟩ := split_unique hnodup hblock hblock'
  exact ⟨l, p, hperm, rfl, hsplit⟩

theorem Filled.definedBefore (h : Filled ir phis ir') (hheap : HeapOk ir) {j : ℕ}
    (hdef : DefinedBefore ir entry b i j) : DefinedBefore ir' entry b i j := by
  rcases hdef with ⟨pre, post, hblock, hj⟩ | ⟨x, hx, hj⟩
  · obtain ⟨l, -, hl⟩ := h.blocks b
    refine .inl ⟨l ++ pre, post, ?_, List.mem_append_right _ hj⟩
    rw [hl, hblock, List.append_assoc]
  · refine .inr ⟨x, ?_, h.mem_blocks.mpr (.inr hj)⟩
    rw [h.cfgEdge_eq hheap]
    exact hx

theorem Filled.operandOk (h : Filled ir phis ir') (hheap : HeapOk ir) (hi : i ∈ ir.blocks b)
    {v : Value} (hop : OperandOk ir entry b i v) : OperandOk ir' entry b i v := by
  cases hop with
  | const c => exact .const c
  | block x hjump =>
      refine .block x ?_
      rw [h.insts_of_mem hheap hi]
      exact hjump
  | @inst j hresult hdef =>
      refine .inst ?_ (h.definedBefore hheap hdef)
      have hj : ∃ c, j ∈ ir.blocks c := by
        rcases hdef with ⟨pre, post, hblock, hj⟩ | ⟨x, -, hj⟩
        · refine ⟨b, ?_⟩
          rw [hblock]
          exact List.mem_append_left _ hj
        · exact ⟨x, hj⟩
      obtain ⟨c, hj⟩ := hj
      rw [h.insts_of_mem hheap hj]
      exact hresult

/-- What is assumed of a function holds with phis in front. -/
theorem Filled.ssaFunction (h : Filled ir phis ir') (hheap : HeapOk ir)
    (hform : SsaFunction ir entry) : SsaFunction ir' entry := by
  have hcfg := h.cfgEdge_eq hheap
  refine ⟨⟨fun b hb i hi a ha => ?_, fun b hb i hi a ha => ?_⟩,
    fun b hb l i hblock hla j hj k x => ?_, fun b hb i hi htype k v hop => ?_⟩
  · rw [hcfg] at hb
    rcases h.mem_blocks.mp hi with ⟨p, hp, rfl⟩ | hi
    · rw [(h.phi b p hp).2.2.1] at ha
      cases ha
    · rw [h.insts_of_mem hheap hi] at ha
      exact hform.reg b hb i hi a ha
  · rw [hcfg] at hb
    have hib := h.not_phi hi (by rw [ha]; exact InstType.noConfusion)
    rw [h.insts_of_mem hheap hib] at ha ⊢
    exact hform.assign b hb i hib a ha
  · rw [hcfg] at hb
    have hi : i ∈ ir'.blocks b := mem_of_split hblock
    have hib := h.not_phi hi (by
      intro hphi
      rw [hphi] at hla
      cases hla)
    obtain ⟨l₀, pre, hperm, rfl, hpre⟩ := h.split hib hheap hblock
    rw [h.operand hheap]
    rcases List.mem_append.mp hj with hj | hj
    · obtain ⟨p, hp, rfl⟩ := List.mem_map.mp (hperm.mem_iff.mp hj)
      have huses := hheap.fresh p.phiInst (h.phi b p hp).1
      unfold Ir.operand
      dsimp only
      rw [huses]
      simp
    · rw [h.insts_of_mem hheap hib] at hla
      exact hform.jump b hb pre i hpre hla j hj k x
  · rw [hcfg] at hb
    have hib := h.not_phi hi htype
    rw [h.operand hheap] at hop
    rw [h.insts_of_mem hheap hib] at htype
    exact h.operandOk hheap hib (hform.operand b hb i hib htype k v hop)

/-- The blocks that write a register are those that did so, and those with a phi for it. -/
theorem Filled.writes_iff (h : Filled ir phis ir') (hheap : HeapOk ir) {x a : ℕ} :
    Writes ir' phis x a ↔ Writes ir phis x a := by
  refine or_congr_left ⟨?_, ?_⟩
  · rintro ⟨j, hj, ht⟩
    have hjx := h.not_phi hj (by rw [ht]; exact InstType.noConfusion)
    rw [h.insts_of_mem hheap hjx] at ht
    exact ⟨j, hjx, ht⟩
  · rintro ⟨j, hj, ht⟩
    refine ⟨j, h.mem_blocks.mpr (.inr hj), ?_⟩
    rw [h.insts_of_mem hheap hj]
    exact ht

/-- **What renaming starts with**, after phis have been put in front. -/
theorem Filled.renameForm (h : Filled ir phis ir') (hheap : HeapOk ir)
    (hdoms : CorrectDoms ir entry doms) (hform : SsaFunction ir entry)
    (hreg : ∀ b, ∀ p ∈ phis b, IntReg p.rId) : RenameForm ir' entry phis doms where
  heap := h.heapOk hheap
  doms := h.correctDoms hheap hdoms
  form := h.ssaFunction hheap hform
  phi b _ p hp := ⟨hreg b p hp, h.mem_blocks.mpr (.inl ⟨p, hp, rfl⟩), (h.phi b p hp).2.2.1,
    h.unused _ (h.phi b p hp).1⟩

theorem Filled.loadsSupplied (h : Filled ir phis ir') (hheap : HeapOk ir)
    (hsupplied : LoadsSupplied ir entry phis) : LoadsSupplied ir' entry phis := by
  intro b hb pre i post a hblock htype
  have hi : i ∈ ir'.blocks b := mem_of_split hblock
  have hib := h.not_phi hi (by rw [htype]; exact InstType.noConfusion)
  obtain ⟨l, pre', -, rfl, hpre⟩ := h.split hib hheap hblock
  rw [h.cfgEdge_eq hheap] at hb
  rw [h.insts_of_mem hheap hib] at htype
  rcases hsupplied b hb pre' i post a hpre htype with ⟨j, hj, ht⟩ | hphi | ⟨x, hx, hwrites⟩
  · refine .inl ⟨j, List.mem_append_right _ hj, ?_⟩
    have hjb : j ∈ ir.blocks b := by
      rw [hpre]
      exact List.mem_append_left _ hj
    rw [h.insts_of_mem hheap hjb]
    exact ht
  · exact .inr (.inl hphi)
  · refine .inr (.inr ⟨x, ?_, (h.writes_iff hheap).mpr hwrites⟩)
    rw [h.cfgEdge_eq hheap]
    exact hx

end Filled

/-! ## One more phi -/

section GetOrCreate

variable {ir ir' : Ir} {phis : ℕ → List PhiInfo} {bInfo : BlockInfo} {block rId : ℕ}
  {type : DataType}

/-- A phi that there is. -/
theorem BlockInfo.findPhi_eq_some {phi : PhiInfo} (h : bInfo.findPhi rId = some phi) :
    phi ∈ bInfo.phiList ∧ toInt phi.rId = toInt rId := by
  have hkey := List.find?_some h
  exact ⟨List.mem_of_find?_eq_some h, by simpa using hkey⟩

theorem BlockInfo.findPhi_eq_none (h : bInfo.findPhi rId = none) :
    ∀ p ∈ bInfo.phiList, toInt p.rId ≠ toInt rId := by
  intro p hp
  simpa using List.find?_eq_none.mp h p hp

/-- The new phi at the top of its block. -/
theorem Filled.insert (h : Filled ir phis ir') (hheap : HeapOk ir) :
    Filled ir (Function.update phis block (phis block ++ [⟨rId, ir'.instCount⟩]))
      (blockInsertTop (instNewPhi ir' type).1 block ir'.instCount) := by
  have hnew : (instNewPhi ir' type).1.insts ir'.instCount = ⟨.phi, type, [], 0⟩ :=
    Function.update_self _ _ _
  have hinsts : ∀ i, (blockInsertTop (instNewPhi ir' type).1 block ir'.instCount).insts i =
      if i = ir'.instCount then ⟨.phi, type, [], block⟩ else ir'.insts i := by
    intro i
    show Function.update (Function.update ir'.insts ir'.instCount _) ir'.instCount _ i = _
    by_cases hi : i = ir'.instCount
    · rw [hi, Function.update_self, if_pos rfl, hnew]
    · rw [Function.update_of_ne hi, Function.update_of_ne hi, if_neg hi]
  have hblocks : ∀ b, (blockInsertTop (instNewPhi ir' type).1 block ir'.instCount).blocks b =
      if b = block then ir'.instCount :: ir'.blocks b else ir'.blocks b := by
    intro b
    show Function.update ir'.blocks block _ b = _
    by_cases hb : b = block
    · subst hb
      rw [Function.update_self, if_pos rfl]
      rfl
    · rw [Function.update_of_ne hb, if_neg hb]
  have hcases : ∀ {b p}, p ∈ Function.update phis block (phis block ++ [⟨rId, ir'.instCount⟩]) b →
      p ∈ phis b ∨ (b = block ∧ p = ⟨rId, ir'.instCount⟩) := by
    intro b p hp
    by_cases hb : b = block
    · subst hb
      rw [Function.update_self] at hp
      exact (List.mem_append.mp hp).imp id fun hp => ⟨rfl, List.mem_singleton.mp hp⟩
    · rw [Function.update_of_ne hb] at hp
      exact .inl hp
  refine ⟨fun i hi => ?_, fun b => ?_, fun b p hp => ?_, fun b => ?_, fun i hi => ?_, ?_, h.consts,
    h.le.trans (Nat.le_succ _), h.blockCount, h.constCount⟩
  · rw [hinsts, if_neg (hi.trans_le h.le).ne, h.insts i hi]
  · obtain ⟨l, hperm, hl⟩ := h.blocks b
    rw [hblocks]
    by_cases hb : b = block
    · subst hb
      rw [if_pos rfl, Function.update_self, hl]
      refine ⟨ir'.instCount :: l, ?_, rfl⟩
      rw [List.map_append]
      exact (hperm.cons _).trans (List.perm_append_singleton _ _).symm
    · rw [if_neg hb, Function.update_of_ne hb]
      exact ⟨l, hperm, hl⟩
  · rw [hinsts]
    rcases hcases hp with hp | ⟨rfl, rfl⟩
    · obtain ⟨hge, hlt, htype, hparent⟩ := h.phi b p hp
      rw [if_neg hlt.ne]
      exact ⟨hge, hlt.trans (Nat.lt_succ_self _), htype, hparent⟩
    · rw [if_pos rfl]
      exact ⟨h.le, Nat.lt_succ_self _, rfl, rfl⟩
  · by_cases hb : b = block
    · subst hb
      rw [Function.update_self, List.map_append]
      refine List.nodup_append.mpr ⟨h.nodup b, List.nodup_singleton _, fun x hx y hy hxy => ?_⟩
      obtain ⟨p, hp, rfl⟩ := List.mem_map.mp hx
      have hy' : y = ir'.instCount := List.mem_singleton.mp hy
      rw [hy'] at hxy
      exact (h.phi b p hp).2.1.ne hxy
    · rw [Function.update_of_ne hb]
      exact h.nodup b
  · rw [hinsts]
    split
    · rfl
    · exact h.unused i hi
  · show Function.update ir'.uses (.inst ir'.instCount) [] = ir.uses
    rw [h.uses]
    funext v
    by_cases hv : v = .inst ir'.instCount
    · subst hv
      rw [Function.update_self]
      symm
      rw [List.eq_nil_iff_forall_not_mem]
      intro u hu
      have hlt := hheap.operand u _ ((hheap.uses.mem _ u).mp hu)
      exact absurd (hlt.trans_le h.le) (lt_irrefl _)
    · rw [Function.update_of_ne hv]

/-- **`block_info_getOrCreatePhi`**: afterwards there is a phi for the register. -/
theorem blockInfoGetOrCreatePhi_spec (rId : ℕ) (type : DataType) (h : Filled ir phis ir')
    (hheap : HeapOk ir)
    (hlist : bInfo.phiList = phis block) :
    ∃ ir'' new phi, blockInfoGetOrCreatePhi ir' bInfo block rId type =
        (ir'', { bInfo with phiList := bInfo.phiList ++ new }, phi) ∧
      Filled ir (Function.update phis block (bInfo.phiList ++ new)) ir'' ∧
      phi ∈ bInfo.phiList ++ new ∧ toInt phi.rId = toInt rId ∧
      ((new = [] ∧ phi ∈ phis block) ∨
        (new = [phi] ∧ phi.rId = rId ∧ ∀ p ∈ phis block, toInt p.rId ≠ toInt rId)) := by
  unfold blockInfoGetOrCreatePhi
  cases hfind : bInfo.findPhi rId with
  | some phi =>
      obtain ⟨hmem, hkey⟩ := BlockInfo.findPhi_eq_some hfind
      refine ⟨ir', [], phi, ?_, ?_, ?_, hkey, .inl ⟨rfl, hlist ▸ hmem⟩⟩
      · rw [List.append_nil]
      · rw [List.append_nil, hlist, Function.update_eq_self]
        exact h
      · rw [List.append_nil]
        exact hmem
  | none =>
      refine ⟨_, [⟨rId, ir'.instCount⟩], ⟨rId, ir'.instCount⟩, rfl, ?_,
        List.mem_append_right _ List.mem_cons_self, rfl, .inr ⟨rfl, rfl, ?_⟩⟩
      · rw [hlist]
        exact h.insert hheap
      · rw [← hlist]
        exact BlockInfo.findPhi_eq_none hfind

end GetOrCreate
