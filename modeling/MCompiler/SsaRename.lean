/-
# Renaming along the dominator tree

`ssaRename_spec` : a call of `ssa_rename` for a block renames the blocks that were not renamed
and lie below it in the dominator tree, and gives the stacks back as they were.  So the
call for the entry renames every reachable block (`ssaRename_renamed`).
-/
import MCompiler.SsaRenameBlock

open FlowGraph

/-! ## The operands of phis -/

section Push

variable {ir ir' : Ir} {entry : ℕ} {phis : ℕ → List PhiInfo} {doms : Dominators}
  {done : List ℕ} {value : ℕ → Value} {pushed : List PhiOperand} {vm : VariableMap} {b : ℕ}

/-- **The loop over the phis** of a successor. -/
theorem pushPhis_rewritten (vm : VariableMap) (b : ℕ) (l : List PhiInfo)
    (hl : ∀ p ∈ l, IntReg p.rId ∧ (ir.insts p.phiInst).uses = [])
    (h : Rewritten ir done value pushed ir') :
    ∃ ir'' pushed', l.foldlM (pushPhi vm b) ir' = some ir'' ∧
      Rewritten ir done value pushed' ir'' ∧ ∀ e, e ∈ pushed' ↔ e ∈ pushed ∨
        (e.block = b ∧ ∃ p ∈ l, p.phiInst = e.phi ∧ vm.tops p.rId = some e.value) := by
  induction l generalizing ir' pushed with
  | nil => exact ⟨ir', pushed, rfl, h, fun e => by simp⟩
  | cons p l ih =>
      have hl' : ∀ q ∈ l, IntReg q.rId ∧ (ir.insts q.phiInst).uses = [] :=
        fun q hq => hl q (List.mem_cons_of_mem _ hq)
      obtain ⟨hreg, huses⟩ := hl p List.mem_cons_self
      have htop : vm.tops p.rId = getLastValueUnsafe vm p.rId := if_pos hreg
      cases hlast : getLastValueUnsafe vm p.rId with
      | none =>
          obtain ⟨ir'', pushed', hrun, hrew, hmem⟩ := ih hl' h
          refine ⟨ir'', pushed', ?_, hrew, fun e => (hmem e).trans (or_congr Iff.rfl
            (and_congr Iff.rfl ?_))⟩
          · rw [List.foldlM_cons, pushPhi, hlast]
            exact hrun
          · rw [List.exists_mem_cons_iff, htop, hlast]
            simp
      | some v =>
          obtain ⟨ir₁, hins, hrew₁⟩ := h.insert huses b v
          obtain ⟨ir'', pushed', hrun, hrew, hmem⟩ := ih hl' hrew₁
          refine ⟨ir'', pushed', ?_, hrew, fun e => (hmem e).trans ?_⟩
          · rw [List.foldlM_cons, pushPhi, hlast]
            dsimp only
            rw [hins]
            exact hrun
          · rw [List.exists_mem_cons_iff, htop, hlast]
            have hnew : e ∈ (if ⟨b, p.phiInst, v⟩ ∈ pushed then pushed
                else pushed ++ [⟨b, p.phiInst, v⟩]) ↔ e ∈ pushed ∨ e = ⟨b, p.phiInst, v⟩ := by
              split
              · rename_i hin
                exact ⟨.inl, fun h => h.elim id fun h => h ▸ hin⟩
              · rw [List.mem_append, List.mem_singleton]
            rw [hnew, or_assoc]
            refine or_congr Iff.rfl ?_
            obtain ⟨eb, ep, ev⟩ := e
            simp only [PhiOperand.mk.injEq, Option.some.injEq]
            constructor
            · rintro (⟨rfl, rfl, rfl⟩ | ⟨rfl, hq⟩)
              · exact ⟨rfl, .inl ⟨rfl, rfl⟩⟩
              · exact ⟨rfl, .inr hq⟩
            · rintro ⟨rfl, ⟨rfl, rfl⟩ | hq⟩
              · exact .inl ⟨rfl, rfl, rfl⟩
              · exact .inr ⟨rfl, hq⟩

/-- The number of a reachable block. -/
theorem CorrectDoms.exists_number (h : CorrectDoms ir entry doms)
    (hb : Reachable (cfgEdge ir) entry b) :
    ∃ n : ℕ, doms.postorder[n]? = some b ∧ blockNumber doms b = some n := by
  obtain ⟨n, hn⟩ := List.mem_iff_getElem?.mp ((h.mem b).mpr hb)
  refine ⟨n, hn, ?_⟩
  have hlt : n < doms.elementCount := by
    rw [h.count]
    exact (List.getElem?_eq_some_iff.mp hn).1
  unfold blockNumber
  rw [h.number n b hn, Option.bind_eq_bind, Option.bind_some, guard, if_pos hlt]
  rfl

/-- **The loop over the successors** of a block. -/
theorem pushSuccessors_rewritten (vm : VariableMap) (b : ℕ) (hinput : RenameForm ir entry phis doms)
    {blockInfo : ℕ → BlockInfo}
    (hinfo : ∀ n c : ℕ, doms.postorder[n]? = some c → (blockInfo n).phiList = phis c)
    (l : List ℕ) (hl : ∀ x ∈ l, Reachable (cfgEdge ir) entry x)
    (h : Rewritten ir done value pushed ir') :
    ∃ ir'' pushed', l.foldlM (pushSuccessor doms blockInfo vm b) ir' = some ir'' ∧
      Rewritten ir done value pushed' ir'' ∧ ∀ e, e ∈ pushed' ↔ e ∈ pushed ∨
        (e.block = b ∧ ∃ x ∈ l, ∃ p ∈ phis x, p.phiInst = e.phi ∧
          vm.tops p.rId = some e.value) := by
  induction l generalizing ir' pushed with
  | nil => exact ⟨ir', pushed, rfl, h, fun e => by simp⟩
  | cons x l ih =>
      have hx := hl x List.mem_cons_self
      obtain ⟨n, hn, hnum⟩ := hinput.doms.exists_number hx
      have hphis : ∀ p ∈ phis x, IntReg p.rId ∧ (ir.insts p.phiInst).uses = [] :=
        fun p hp => ⟨(hinput.phi x hx p hp).1, (hinput.phi x hx p hp).2.2.2⟩
      obtain ⟨ir₁, pushed₁, hrun₁, hrew₁, hmem₁⟩ := pushPhis_rewritten vm b (phis x) hphis h
      obtain ⟨ir'', pushed', hrun, hrew, hmem⟩ :=
        ih (fun y hy => hl y (List.mem_cons_of_mem _ hy)) hrew₁
      refine ⟨ir'', pushed', ?_, hrew, fun e => ?_⟩
      · rw [List.foldlM_cons, pushSuccessor, hnum]
        show ((blockInfo n).phiList.foldlM (pushPhi vm b) ir').bind _ = _
        rw [hinfo n x hn, hrun₁]
        exact hrun
      · rw [hmem, hmem₁, or_assoc, List.exists_mem_cons_iff]
        refine or_congr Iff.rfl ?_
        rw [← and_or_left]

end Push

/-! ## Giving the stacks back -/

section Pop

variable {ir ir' : Ir} {vm : VariableMap} {pushes : List (ℕ × Value)}

theorem popValues_run (ks₀ ks rest : List ℕ)
    (h : (ks₀ ++ (ks ++ rest)).Perm (pushes.map Prod.fst)) (hhas : ∀ a ∈ ks, vm.Has a) :
    ks.foldlM popValue ((vm.pushAll pushes).popAll ks₀) =
      some ((vm.pushAll pushes).popAll (ks₀ ++ ks)) := by
  induction ks generalizing ks₀ with
  | nil => rw [List.append_nil]; rfl
  | cons a ks ih =>
      have hpop : (ks₀ ++ a :: (ks ++ rest)).Perm (pushes.map Prod.fst) := h
      rw [List.foldlM_cons, popValue_pushAll hpop (hhas a List.mem_cons_self),
        Option.bind_eq_bind, Option.bind_some, ih _ ?_ fun b hb => hhas b (List.mem_cons_of_mem _ hb),
        List.append_assoc]
      · rfl
      · rw [List.append_assoc]
        exact h

/-- The loop over the loads and assigns pops the registers of the assigns. -/
theorem popInsts_eq (htype : ∀ i, (ir'.insts i).type = (ir.insts i).type) (l : List ℕ)
    (vm : VariableMap) :
    (loadAssigns ir l).foldlM (popInst ir') vm = (assignRegs ir l).foldlM popValue vm := by
  induction l generalizing vm with
  | nil => rfl
  | cons i l ih =>
      by_cases hla : (ir.insts i).type.isLoadAssign = true
      · have hcons : loadAssigns ir (i :: l) = i :: loadAssigns ir l :=
          List.filter_cons_of_pos hla
        rw [hcons, List.foldlM_cons]
        rcases isLoadAssign_iff.mp hla with ⟨a, ht⟩ | ⟨a, ht⟩
        · have hregs : assignRegs ir (i :: l) = assignRegs ir l := by simp [assignRegs, ht]
          rw [hregs, popInst, htype, ht]
          exact ih vm
        · have hregs : assignRegs ir (i :: l) = a :: assignRegs ir l := by simp [assignRegs, ht]
          rw [hregs, List.foldlM_cons, popInst, htype, ht]
          exact bind_congr fun vm' => ih vm'
      · have hcons : loadAssigns ir (i :: l) = loadAssigns ir l :=
          List.filter_cons_of_neg hla
        have hregs : assignRegs ir (i :: l) = assignRegs ir l := by
          cases ht : (ir.insts i).type <;> simp_all [assignRegs, InstType.isLoadAssign]
        rw [hcons, hregs]
        exact ih vm

/-- **The stacks are given back.** -/
theorem popBlock_eq (htype : ∀ i, (ir'.insts i).type = (ir.insts i).type) {l : List ℕ}
    {phiList : List PhiInfo}
    (hpushes : pushes.map Prod.fst = phiList.map PhiInfo.rId ++ assignRegs ir l)
    (hassign : ∀ a ∈ assignRegs ir l, vm.Has a) (hphi : ∀ p ∈ phiList, vm.Has p.rId) :
    (do
      let vm' ← (loadAssigns ir l).foldlM (popInst ir') (vm.pushAll pushes)
      phiList.foldlM (fun vm phi => popValue vm phi.rId) vm') = some vm := by
  have hperm : (assignRegs ir l ++ phiList.map PhiInfo.rId).Perm (pushes.map Prod.fst) := by
    rw [hpushes]
    exact List.perm_append_comm
  have h₁ := popValues_run [] (assignRegs ir l) (phiList.map PhiInfo.rId)
    hperm hassign
  have h₂ := popValues_run (assignRegs ir l) (phiList.map PhiInfo.rId) []
    (by rw [List.append_nil]; exact hperm)
    (fun a ha => by
      obtain ⟨p, hp, rfl⟩ := List.mem_map.mp ha
      exact hphi p hp)
  rw [popAll_nil, List.nil_append] at h₁
  rw [popInsts_eq htype, h₁, Option.bind_eq_bind, Option.bind_some]
  rw [List.foldlM_map, popAll_pushAll hperm] at h₂
  exact h₂

end Pop

/-! ## The control flow graph stays -/

/-- **Removing the loads and assigns** of a block does not change its successors. -/
theorem Rewritten.successors_iff {ir ir' : Ir} {entry : ℕ} {done : List ℕ}
    {value : ℕ → Value} {pushed : List PhiOperand} {b : ℕ}
    (h : Rewritten ir done value pushed ir') (hform : SsaFunction ir entry)
    (hb : Reachable (cfgEdge ir) entry b) (hvalue : ∀ j x, value j ≠ .block x)
    (hphi : ∀ j, (ir.insts j).type ≠ .phi → phiUses pushed j = [])
    (hdone : ∀ i ∈ ir.blocks b, i ∈ done ↔ (ir.insts i).type.isLoadAssign = true) {x : ℕ} :
    x ∈ blockSuccessors ir' b ↔ x ∈ blockSuccessors ir b := by
  have hop : ∀ u : Use, (ir.insts u.inst).type ≠ .phi →
      (ir'.operand u = some (.block x) ↔ ir.operand u = some (.block x)) := by
    rintro ⟨i, k⟩ hi
    rw [h.operand (hphi i hi)]
    cases ir.operand ⟨i, k⟩ with
    | none => simp
    | some v =>
        cases v with
        | inst j => simp [sub, hvalue]
        | const c => simp [sub]
        | block y => simp [sub]
  have hlast' : blockLastInstruction ir' b = ((ir.blocks b).filter (· ∉ done)).getLast? := by
    rw [blockLastInstruction, h.blocks]
  rw [mem_blockSuccessors, mem_blockSuccessors, hlast']
  rcases List.eq_nil_or_concat (ir.blocks b) with hnil | ⟨l, i, hl⟩
  · rw [blockLastInstruction, hnil]
    simp
  rw [List.concat_eq_append] at hl
  have hib : i ∈ ir.blocks b := mem_of_split hl
  rw [blockLastInstruction, hl, List.filter_append]
  by_cases hla : (ir.insts i).type.isLoadAssign = true
  · -- no jump at all
    rw [List.filter_cons_of_neg (by simpa using (hdone i hib).mpr hla), List.filter_nil,
      List.append_nil]
    refine iff_of_false ?_ ?_
    · rintro ⟨⟨j, k⟩, hj, htype, hblock⟩
      have hjl : j ∈ l := List.mem_of_mem_filter (List.mem_of_getLast? hj)
      rw [h.type] at htype
      exact hform.jump b hb l i hl hla j hjl k x ((hop ⟨j, k⟩ htype).mp hblock)
    · rintro ⟨⟨j, k⟩, hj, htype, hblock⟩
      rw [List.getLast?_append, List.getLast?_singleton] at hj
      obtain rfl := Option.some.inj hj
      cases hform.operand b hb _ hib htype k _ hblock with
      | block _ hjump =>
          rcases isLoadAssign_iff.mp hla with ⟨a, ha⟩ | ⟨a, ha⟩
          · rw [ha] at hjump
            cases hjump
          · rw [ha] at hjump
            cases hjump
  · rw [List.filter_cons_of_pos (by simpa using fun hi => hla ((hdone i hib).mp hi)),
      List.filter_nil, List.getLast?_append, List.getLast?_append, List.getLast?_singleton]
    refine exists_congr fun u => and_congr_right fun hu => ?_
    rw [h.type]
    exact and_congr_right fun htype => hop u htype

/-! ## The walk -/

/-- Between calls: the blocks `W` have been renamed. -/
structure WalkInv (ir : Ir) (entry : ℕ) (phis : ℕ → List PhiInfo) (doms : Dominators)
    (W : List ℕ) (r : Renaming) (done : List ℕ) (pushed : List PhiOperand) (s : RenameState) :
    Prop where
  renamed : Renamed ir entry phis (· ∈ W) r done pushed s.ir
  inside : ∀ c ∈ W, Reachable (cfgEdge ir) entry c
  closed : ∀ c ∈ W, ∀ x, Dominates (cfgEdge ir) entry x c → x ∈ W
  info : ∀ n c : ℕ, doms.postorder[n]? = some c → (s.blockInfo n).phiList = phis c ∧
    (s.blockInfo n).loadAssigns = loadAssigns ir (ir.blocks c) ∧
      ((s.blockInfo n).isRenamed = true ↔ c ∈ W)
  has : ∀ c, Reachable (cfgEdge ir) entry c → (∀ i ∈ ir.blocks c, ∀ a,
    (ir.insts i).type = .assignVar a → s.variableMap.Has a) ∧
      ∀ p ∈ phis c, s.variableMap.Has p.rId

/-- The blocks that are not renamed yet. -/
def unrenamed (doms : Dominators) (W : List ℕ) : List ℕ := doms.postorder.filter (· ∉ W)

/-- What a call that starts with the blocks `W` renamed has done in the end. -/
structure RenameSpec (ir : Ir) (entry : ℕ) (phis : ℕ → List PhiInfo) (doms : Dominators)
    (W : List ℕ) (r : Renaming) (s : RenameState) (b : ℕ) (W' : List ℕ) (r' : Renaming)
    (done' : List ℕ) (pushed' : List PhiOperand) (s' : RenameState) : Prop where
  inv : WalkInv ir entry phis doms W' r' done' pushed' s'
  variableMap : s'.variableMap = s.variableMap
  old : W ⊆ W'
  mem : b ∈ W'
  childs : ∀ c ∈ W', c ∉ W → ∀ x, Reachable (cfgEdge ir) entry x →
    IsIDom (cfgEdge ir) entry c x → x ∈ W'
  outEnv : ∀ c ∈ W, r'.outEnv c = r.outEnv c

section Walk

variable {ir : Ir} {entry : ℕ} {phis : ℕ → List PhiInfo} {doms : Dominators} {W : List ℕ}
  {r : Renaming} {done : List ℕ} {pushed : List PhiOperand} {s : RenameState} {b : ℕ}

/-- A strict dominator of a block dominates its immediate dominator, and the entry has
none. -/
theorem not_strictlyDominates_entry {E : ℕ → ℕ → Prop} {x : ℕ} :
    ¬ StrictlyDominates E entry x entry := by
  intro h
  exact h.1 (List.mem_singleton.mp (h.2 _ .root))

/-- The next block, as a context for its instructions. -/
theorem WalkInv.context (h : WalkInv ir entry phis doms W r done pushed s)
    (hinput : RenameForm ir entry phis doms) (hb : Reachable (cfgEdge ir) entry b) (hW : b ∉ W)
    (hpos : b = entry ∨ ∃ d ∈ W, IsIDom (cfgEdge ir) entry d b) :
    BlockContext ir entry phis doms (· ∈ W) r done pushed b where
  input := hinput
  renamed := ⟨_, h.renamed⟩
  inside := h.inside
  closed := h.closed
  reach := hb
  fresh := hW
  above x hx := by
    rcases hpos with rfl | ⟨d, hd, hidom⟩
    · exact absurd hx not_strictlyDominates_entry
    · exact h.closed d hd x (hidom.least x hx)

/-- The values that replace results are no blocks. -/
theorem Renamed.value_ne_block {ir' : Ir} {P : ℕ → Prop}
    (h : Renamed ir entry phis P r done pushed ir') (j x : ℕ) : r.value j ≠ .block x := by
  intro hj
  by_cases hload : j ∈ done ∧ ∃ a, (ir.insts j).type = .loadVar a
  · obtain ⟨hmem, a, ha⟩ := hload
    have hs := h.settled j hmem a ha
    rw [hj] at hs
    exact hs
  · have hkept : r.value j = .inst j := by
      apply h.kept
      by_cases hmem : j ∈ done
      · obtain ⟨c, -, hjc⟩ := (h.mem_done j).mp hmem
        rcases isLoadAssign_iff.mp (mem_loadAssigns.mp hjc).2 with hl | ha
        · exact absurd ⟨hmem, hl⟩ hload
        · exact .inr ha
      · exact .inl hmem
    rw [hkept] at hj
    cases hj

/-- **One more block.**  What the loops of the call for `b` have done, put together. -/
theorem Renamed.step {env : Env} {vm : VariableMap} {value : ℕ → Value} {s₂ : RenameState}
    {ir₃ : Ir} {pushed₃ : List PhiOperand} (h : WalkInv ir entry phis doms W r done pushed s)
    (hctx : BlockContext ir entry phis doms (· ∈ W) r done pushed b)
    (hpos : (b = entry ∧ env = fun _ => none) ∨
      ∃ d ∈ W, IsIDom (cfgEdge ir) entry d b ∧ env = r.outEnv d)
    (hp : BlockProgress ir phis r done pushed b (phiEnv (phis b) env) vm (ir.blocks b) value s₂)
    (hrew : Rewritten ir (done ++ loadAssigns ir (ir.blocks b)) value pushed₃ ir₃)
    (hpushed : ∀ e, e ∈ pushed₃ ↔ e ∈ pushed ∨ (e.block = b ∧
      ∃ x ∈ blockSuccessors ir b, ∃ p ∈ phis x, p.phiInst = e.phi ∧
        s₂.variableMap.tops p.rId = some e.value)) :
    Renamed ir entry phis (· ∈ b :: W)
      ⟨value, Function.update r.inEnv b env, Function.update r.outEnv b
        (blockEnv ir value (phiEnv (phis b) env) (ir.blocks b))⟩
      (done ++ loadAssigns ir (ir.blocks b)) pushed₃ ir₃ := by
  have hne : ∀ c ∈ W, c ≠ b := by
    rintro c hc rfl
    exact hctx.fresh hc
  -- the blocks renamed before keep their values
  have hsub : ∀ c ∈ W, ∀ l l', ir.blocks c = l ++ l' → ∀ env', blockEnv ir value env' l =
      blockEnv ir r.value env' l := by
    intro c hc l l' hl env'
    refine blockEnv_congr fun i hi v hop ⟨a, ha⟩ => ?_
    have hic : i ∈ ir.blocks c := by
      rw [hl]
      exact List.mem_append_left _ hi
    cases v with
    | const k => rfl
    | block x => rfl
    | inst j =>
        show value j = r.value j
        by_cases hj : j ∈ done
        · exact hp.old j hj
        · have hjb : j ∉ loadAssigns ir (ir.blocks b) := by
            intro hjb
            refine hctx.operand_ne_before hc hic (mem_loadAssigns.mp hjb).1 ?_ 0 hop
            rw [ha]
            exact InstType.noConfusion
          rw [hp.kept j (.inl fun hmem => (List.mem_append.mp hmem).elim hj hjb),
            h.renamed.kept j (.inl hj)]
  refine ⟨hrew, fun i => ?_, hp.kept, hp.settled, fun e => ?_, fun c hc => ?_, fun c hc a v hv => ?_⟩
  · rw [List.mem_append, h.renamed.mem_done]
    constructor
    · rintro (⟨c, hc, hi⟩ | hi)
      · exact ⟨c, List.mem_cons_of_mem _ hc, hi⟩
      · exact ⟨b, List.mem_cons_self, hi⟩
    · rintro ⟨c, hc, hi⟩
      rcases List.mem_cons.mp hc with rfl | hc
      · exact .inr hi
      · exact .inl ⟨c, hc, hi⟩
  · rw [hpushed, h.renamed.mem_pushed, List.mem_cons]
    by_cases heb : e.block = b
    · rw [heb]
      simp only [Function.update_self, hctx.fresh, false_and, true_and, false_or, true_or]
      rw [hp.tops]
    · simp only [heb, false_and, or_false, false_or, Function.update_of_ne heb]
  · rcases List.mem_cons.mp hc with rfl | hc
    · refine ⟨fun hentry => ?_, fun d hd => ?_, ?_, fun pre i post a hsplit hload => ?_⟩
      · dsimp only
        rw [Function.update_self]
        rcases hpos with ⟨-, henv⟩ | ⟨d, -, hidom, -⟩
        · exact henv
        · rw [hentry] at hidom
          exact absurd hidom.strict not_strictlyDominates_entry
      · dsimp only
        rw [Function.update_self]
        rcases hpos with ⟨rfl, -⟩ | ⟨d', hd', hidom, henv⟩
        · exact absurd hd.strict not_strictlyDominates_entry
        · obtain rfl := hidom.unique hctx.reach hd
          rw [Function.update_of_ne (hne _ hd'), henv]
      · dsimp only
        rw [Function.update_self, Function.update_self]
      · dsimp only
        rw [Function.update_self]
        exact hp.load pre i post a hsplit hload
    · have hold := h.renamed.blocks c hc
      have hcb := hne c hc
      refine ⟨fun hentry => ?_, fun d hd => ?_, ?_, fun pre i post a hsplit hload => ?_⟩
      · dsimp only
        rw [Function.update_of_ne hcb]
        exact hold.atEntry hentry
      · dsimp only
        rw [Function.update_of_ne hcb, Function.update_of_ne (hne d (h.closed c hc d hd.strict.2))]
        exact hold.idom d hd
      · dsimp only
        rw [Function.update_of_ne hcb, Function.update_of_ne hcb,
          hsub c hc _ [] (List.append_nil _).symm]
        exact hold.out
      · dsimp only
        rw [Function.update_of_ne hcb, hsub c hc pre _ hsplit, hold.load pre i post a hsplit hload,
          hp.old]
        refine (h.renamed.mem_done i).mpr ⟨c, hc, mem_loadAssigns.mpr ⟨?_, ?_⟩⟩
        · rw [hsplit]
          exact List.mem_append_right _ List.mem_cons_self
        · rw [hload]
          rfl
  · dsimp only at hv
    rcases List.mem_cons.mp hc with rfl | hc
    · rw [Function.update_self] at hv
      exact hp.envSettled a v hv
    · rw [Function.update_of_ne (hne c hc)] at hv
      exact h.renamed.env c hc a v hv

/-- Where a block starts with the registers of its immediate dominator, those have a value that
one of its strict dominators writes. -/
theorem enters_ne_none (hdoms : CorrectDoms ir entry doms) {c a : ℕ}
    (hreach : Reachable (cfgEdge ir) entry c) {env : Env}
    (hpos : (c = entry ∧ env = fun _ => none) ∨ ∃ d, IsIDom (cfgEdge ir) entry d c ∧
      (env a ≠ none ↔ ∃ x, Dominates (cfgEdge ir) entry x d ∧ Writes ir phis x a)) :
    env a ≠ none ↔ ∃ x, StrictlyDominates (cfgEdge ir) entry x c ∧ Writes ir phis x a := by
  rcases hpos with ⟨rfl, rfl⟩ | ⟨d, hidom, henv⟩
  · refine iff_of_false (fun hne => hne rfl) ?_
    rintro ⟨x, hx, -⟩
    exact not_strictlyDominates_entry hx
  · rw [henv]
    refine exists_congr fun x => and_congr ?_ Iff.rfl
    exact (hidom.strictlyDominates_iff hreach).symm

/-- **Where registers have a value**: at the end of a block, those that one of its dominators
writes. -/
theorem Renamed.outEnv_ne_none {ir' : Ir} {P : ℕ → Prop} (hinput : RenameForm ir entry phis doms)
    (h : Renamed ir entry phis P r done pushed ir')
    (hP : ∀ c, P c → ∀ x, Dominates (cfgEdge ir) entry x c → P x) {c : ℕ} (hc : P c)
    (hreach : Reachable (cfgEdge ir) entry c) (a : ℕ) :
    r.outEnv c a ≠ none ↔ ∃ x, Dominates (cfgEdge ir) entry x c ∧ Writes ir phis x a := by
  induction c, hreach using Reachable.dominator_induction with
  | step c hreach ih =>
      have hops : ∀ i ∈ ir.blocks c, ∀ a', (ir.insts i).type = .assignVar a' →
          ∃ v, ir.operand ⟨i, 0⟩ = some v := fun i hi a' hi' =>
        (hinput.assign_operand hreach hi hi').imp fun _ hv => hv.1
      have hin : r.inEnv c a ≠ none ↔
          ∃ x, StrictlyDominates (cfgEdge ir) entry x c ∧ Writes ir phis x a := by
        apply enters_ne_none hinput.doms hreach
        by_cases hentry : c = entry
        · exact .inl ⟨hentry, (h.blocks c hc).atEntry hentry⟩
        · obtain ⟨d, -, hidom⟩ := hinput.doms.idom c hreach hentry
          refine .inr ⟨d, hidom, ?_⟩
          rw [(h.blocks c hc).idom d hidom]
          exact ih d hidom.strict (hP c hc d hidom.strict.2)
      rw [(h.blocks c hc).out, blockEnv_ne_none hops, phiEnv_ne_none, hin]
      constructor
      · rintro ((⟨x, hx, hwrites⟩ | hphi) | hassign)
        · exact ⟨x, hx.2, hwrites⟩
        · exact ⟨c, .refl c, .inr hphi⟩
        · exact ⟨c, .refl c, .inl hassign⟩
      · rintro ⟨x, hx, hwrites⟩
        by_cases hxc : x = c
        · subst hxc
          exact hwrites.elim .inr fun hphi => .inl (.inr hphi)
        · exact .inl (.inl ⟨x, ⟨hxc, hx⟩, hwrites⟩)

/-- A load has a value if its register has one after the phis of the block, or is assigned
before. -/
theorem supplied_iff {c a : ℕ} {env : Env} {pre : List ℕ}
    (henv : env a ≠ none ↔
      ∃ x, StrictlyDominates (cfgEdge ir) entry x c ∧ Writes ir phis x a) :
    (phiEnv (phis c) env a ≠ none ∨ ∃ j ∈ pre, (ir.insts j).type = .assignVar a) ↔
      Supplied ir entry phis c a pre := by
  unfold Supplied
  rw [phiEnv_ne_none, henv, or_comm, or_comm (b := ∃ p ∈ phis c, p.rId = a)]

/-- **Renamed loads had a value.** -/
theorem Renamed.loadsSupplied {ir' : Ir} (hinput : RenameForm ir entry phis doms)
    (h : Renamed ir entry phis (Reachable (cfgEdge ir) entry) r done pushed ir') :
    LoadsSupplied ir entry phis := by
  intro c hc pre i post a hblock htype
  have henv : r.inEnv c a ≠ none ↔
      ∃ x, StrictlyDominates (cfgEdge ir) entry x c ∧ Writes ir phis x a := by
    apply enters_ne_none hinput.doms hc
    by_cases hentry : c = entry
    · exact .inl ⟨hentry, (h.blocks c hc).atEntry hentry⟩
    · obtain ⟨d, -, hidom⟩ := hinput.doms.idom c hc hentry
      refine .inr ⟨d, hidom, ?_⟩
      rw [(h.blocks c hc).idom d hidom]
      exact h.outEnv_ne_none hinput (fun x hx y hy => hy.reachable hx)
        (hidom.strict.2.reachable hc) (hidom.strict.2.reachable hc) a
  rw [← supplied_iff henv]
  have hops : ∀ j ∈ pre, ∀ a', (ir.insts j).type = .assignVar a' →
      ∃ v, ir.operand ⟨j, 0⟩ = some v := by
    intro j hj a' hj'
    have hjc : j ∈ ir.blocks c := by
      rw [hblock]
      exact List.mem_append_left _ hj
    exact (hinput.assign_operand hc hjc hj').imp fun _ hv => hv.1
  rw [← blockEnv_ne_none hops, (h.blocks c hc).load pre i post a hblock htype]
  exact Option.some_ne_none _

/-- The registers at the start of the next block are those on the stacks. -/
structure EntersAt (ir : Ir) (entry : ℕ) (W : List ℕ) (r : Renaming) (b : ℕ) (env : Env) :
    Prop where
  pos : (b = entry ∧ env = fun _ => none) ∨
    ∃ d ∈ W, IsIDom (cfgEdge ir) entry d b ∧ env = r.outEnv d

/-- What is on the stacks stays. -/
theorem WalkInv.env_settled (h : WalkInv ir entry phis doms W r done pushed s)
    (hinput : RenameForm ir entry phis doms) (hb : Reachable (cfgEdge ir) entry b) {env : Env}
    (hpos : EntersAt ir entry W r b env) {a : ℕ} {v : Value}
    (hv : phiEnv (phis b) env a = some v) : Settled ir v := by
  rcases phiEnv_cases (phis b) env a with ⟨heq, -⟩ | ⟨p, hp, -, heq⟩
  · rw [heq] at hv
    rcases hpos.pos with ⟨-, rfl⟩ | ⟨d, hd, -, rfl⟩
    · cases hv
    · exact h.renamed.env d hd a v hv
  · rw [heq] at hv
    obtain rfl := Option.some.inj hv
    show (ir.insts p.phiInst).type.isLoadAssign = false
    rw [(hinput.phi b hb p hp).2.2.1]
    rfl

/-- If a load of the next block finds no value, not all loads are supplied. -/
theorem WalkInv.not_loadsSupplied (h : WalkInv ir entry phis doms W r done pushed s)
    (hinput : RenameForm ir entry phis doms) (hb : Reachable (cfgEdge ir) entry b) {env : Env}
    (hpos : EntersAt ir entry W r b env) (hfails : LoadFails ir b (phiEnv (phis b) env)) :
    ¬ LoadsSupplied ir entry phis := by
  intro hsupplied
  obtain ⟨pre, i, post, a, hblock, htype, hnot⟩ := hfails
  refine hnot ((supplied_iff (enters_ne_none hinput.doms hb ?_)).mpr
    (hsupplied b hb pre i post a hblock htype))
  refine hpos.pos.imp_right fun ⟨d, hd, hidom, henv⟩ => ⟨d, hidom, ?_⟩
  rw [henv]
  exact h.renamed.outEnv_ne_none hinput h.closed hd (h.inside d hd) a

/-- What the loops of the call for `b` have done before the calls for its children. -/
structure BlockDone (ir : Ir) (entry : ℕ) (phis : ℕ → List PhiInfo) (doms : Dominators)
    (W : List ℕ) (r : Renaming) (vm : VariableMap) (b : ℕ) (r' : Renaming) (done' : List ℕ)
    (pushed' : List PhiOperand) (s' : RenameState) : Prop where
  inv : WalkInv ir entry phis doms (b :: W) r' done' pushed' s'
  pushes : ∃ l, s'.variableMap = vm.pushAll l ∧
    l.map Prod.fst = (phis b).map PhiInfo.rId ++ assignRegs ir (ir.blocks b)
  tops : s'.variableMap.tops = r'.outEnv b
  outEnv : ∀ c ∈ W, r'.outEnv c = r.outEnv c

/-- The flags of the blocks, after one more block. -/
theorem WalkInv.info_update (h : WalkInv ir entry phis doms W r done pushed s)
    (hdoms : CorrectDoms ir entry doms) {n : ℕ} (hn : doms.postorder[n]? = some b) (m c : ℕ)
    (hm : doms.postorder[m]? = some c) :
    (Function.update s.blockInfo n { s.blockInfo n with isRenamed := true } m).phiList = phis c ∧
      (Function.update s.blockInfo n { s.blockInfo n with isRenamed := true } m).loadAssigns =
        loadAssigns ir (ir.blocks c) ∧
      ((Function.update s.blockInfo n { s.blockInfo n with isRenamed := true } m).isRenamed =
        true ↔ c ∈ b :: W) := by
  by_cases hmn : m = n
  · subst hmn
    obtain rfl : b = c := Option.some.inj (hn.symm.trans hm)
    rw [Function.update_self]
    obtain ⟨hphi, hla, -⟩ := h.info m b hn
    exact ⟨hphi, hla, iff_of_true rfl List.mem_cons_self⟩
  · rw [Function.update_of_ne hmn]
    obtain ⟨hphi, hla, hflag⟩ := h.info m c hm
    have hcb : c ≠ b := ne_of_positions hdoms.nodup hm hn hmn
    exact ⟨hphi, hla, hflag.trans (by simp [hcb])⟩

/-- **The loops before the recursive calls** end, unless a load finds no value. -/
theorem renameBlock_spec (h : WalkInv ir entry phis doms W r done pushed s)
    (hinput : RenameForm ir entry phis doms) (hb : Reachable (cfgEdge ir) entry b) (hW : b ∉ W)
    (hpos : EntersAt ir entry W r b s.variableMap.tops) {n : ℕ}
    (hn : doms.postorder[n]? = some b) :
    ∃ vm₁, (phis b).foldlM (fun vm phi => pushValue vm phi.rId (.inst phi.phiInst))
        s.variableMap = some vm₁ ∧
      ((∃ s₂ ir₃ r' pushed',
        (loadAssigns ir (ir.blocks b)).foldlM renameInst
          ⟨s.ir, Function.update s.blockInfo n { s.blockInfo n with isRenamed := true }, vm₁⟩ =
            some s₂ ∧
        (blockSuccessors s₂.ir b).foldlM (pushSuccessor doms s₂.blockInfo s₂.variableMap b)
          s₂.ir = some ir₃ ∧
        BlockDone ir entry phis doms W r s.variableMap b r'
          (done ++ loadAssigns ir (ir.blocks b)) pushed' { s₂ with ir := ir₃ }) ∨
      ((loadAssigns ir (ir.blocks b)).foldlM renameInst
          ⟨s.ir, Function.update s.blockInfo n { s.blockInfo n with isRenamed := true }, vm₁⟩ =
            none ∧ ¬ LoadsSupplied ir entry phis)) := by
  obtain ⟨hassigns, hphis⟩ := h.has b hb
  have hctx := h.context hinput hb hW (hpos.pos.imp And.left fun ⟨d, hd, hidom, _⟩ => ⟨d, hd, hidom⟩)
  obtain ⟨hrun₁, htops₁⟩ := pushPhis_spec (phis b)
    (fun p hp => ⟨hphis p hp, (hinput.phi b hb p hp).1⟩) []
  rw [pushAll_nil, List.nil_append] at hrun₁ htops₁
  set vm₁ := s.variableMap.pushAll ((phis b).map fun p => (p.rId, .inst p.phiInst)) with hvm₁
  set info := Function.update s.blockInfo n { s.blockInfo n with isRenamed := true } with hinfo
  have hstart : BlockProgress ir phis r done pushed b (phiEnv (phis b) s.variableMap.tops)
      s.variableMap [] r.value ⟨s.ir, info, vm₁⟩ := by
    have hnil : done ++ loadAssigns ir [] = done := List.append_nil done
    refine ⟨?_, ?_, ?_, fun _ _ => rfl, ⟨_, hvm₁, ?_⟩, htops₁, fun a v hv => ?_,
      fun p i q a hsplit => ?_⟩
    · rw [hnil]
      exact h.renamed.rewritten
    · rw [hnil]
      exact h.renamed.kept
    · rw [hnil]
      exact h.renamed.settled
    · rw [List.map_map]
      exact (List.append_nil _).symm
    · exact h.env_settled hinput hb hpos hv
    · exact absurd hsplit (by simp)
  refine ⟨vm₁, hrun₁, ?_⟩
  rcases renameInsts_spec hctx hassigns (List.nil_append _).symm hstart with
    ⟨value, s₂, hrun₂, hinfo₂, hp⟩ | ⟨hnone, hfails⟩
  swap
  · exact .inr ⟨hnone, h.not_loadsSupplied hinput hb hpos hfails⟩
  have hdone : ∀ i ∈ ir.blocks b, i ∈ done ++ loadAssigns ir (ir.blocks b) ↔
      (ir.insts i).type.isLoadAssign = true := by
    intro i hi
    rw [List.mem_append, mem_loadAssigns]
    constructor
    · rintro (hmem | ⟨-, hla⟩)
      · exact h.renamed.isLoadAssign_of_done hmem
      · exact hla
    · exact fun hla => .inr ⟨hi, hla⟩
  have hvalue : ∀ j x, value j ≠ .block x := by
    intro j x hj
    by_cases hload : j ∈ done ++ loadAssigns ir (ir.blocks b) ∧
        ∃ a, (ir.insts j).type = .loadVar a
    · obtain ⟨hmem, a, ha⟩ := hload
      have hs := hp.settled j hmem a ha
      rw [hj] at hs
      exact hs
    · rw [hp.kept_of_not_load hctx hload] at hj
      cases hj
  have hsucc : ∀ x, x ∈ blockSuccessors s₂.ir b ↔ x ∈ blockSuccessors ir b := fun x =>
    hp.rewritten.successors_iff hinput.form hb hvalue (fun j hj => hctx.phiUses_eq_nil hj) hdone
  have hinfo' := h.info_update hinput.doms hn
  have hphiList : ∀ m c : ℕ, doms.postorder[m]? = some c →
      (s₂.blockInfo m).phiList = phis c := by
    intro m c hm
    rw [hinfo₂]
    exact (hinfo' m c hm).1
  obtain ⟨ir₃, pushed₃, hrun₃, hrew₃, hmem₃⟩ := pushSuccessors_rewritten s₂.variableMap
    b hinput hphiList (blockSuccessors s₂.ir b)
    (fun x hx => hb.step ((hsucc x).mp hx)) hp.rewritten
  have hren := Renamed.step h hctx hpos.pos hp hrew₃ fun e => by
    rw [hmem₃]
    simp only [hsucc]
  refine .inl ⟨s₂, ir₃, _, pushed₃, hrun₂, hrun₃, ⟨hren, fun c hc => ?_, fun c hc x hx => ?_,
    fun m c hm => ?_, fun c hc => ?_⟩, hp.pushes, ?_, fun c hc => ?_⟩
  · exact (List.mem_cons.mp hc).elim (fun hcb => hcb ▸ hb) (h.inside c)
  · rcases List.mem_cons.mp hc with rfl | hc
    · by_cases hxc : x = c
      · exact hxc ▸ List.mem_cons_self
      · exact List.mem_cons_of_mem _ (hctx.above x ⟨hxc, hx⟩)
    · exact List.mem_cons_of_mem _ (h.closed c hc x hx)
  · show (s₂.blockInfo m).phiList = _ ∧ _
    rw [hinfo₂]
    exact hinfo' m c hm
  · obtain ⟨l, hl, -⟩ := hp.pushes
    obtain ⟨h₁, h₂⟩ := h.has c hc
    show (∀ i ∈ ir.blocks c, ∀ a, _ → s₂.variableMap.Has a) ∧ ∀ p ∈ phis c, s₂.variableMap.Has p.rId
    rw [hl]
    exact ⟨fun i hi a ha => pushAll_has.mpr (h₁ i hi a ha), fun p hp => pushAll_has.mpr (h₂ p hp)⟩
  · dsimp only
    rw [Function.update_self]
    exact hp.tops
  · dsimp only
    rw [Function.update_of_ne]
    rintro rfl
    exact hW hc

theorem unrenamed_length_le {W' : List ℕ} (h : W ⊆ W') :
    (unrenamed doms W').length ≤ (unrenamed doms W).length := by
  apply List.Sublist.length_le
  apply List.monotone_filter_right
  intro x hx
  simp only [decide_eq_true_eq] at hx ⊢
  exact fun hmem => hx (h hmem)

theorem unrenamed_length_lt (hmem : b ∈ doms.postorder) (hW : b ∉ W) :
    (unrenamed doms (b :: W)).length < (unrenamed doms W).length := by
  have hfilter : unrenamed doms (b :: W) = (unrenamed doms W).filter (· ≠ b) := by
    unfold unrenamed
    rw [List.filter_filter]
    apply List.filter_congr
    intro x _
    simp [not_or]
  rw [hfilter]
  apply List.length_filter_lt_length_iff_exists.mpr
  refine ⟨b, ?_, by simp⟩
  exact List.mem_filter.mpr ⟨hmem, by simpa using hW⟩

/-- Calls with a bound on the number of steps do what `RenameSpec` says, or fail at a load that
is not supplied. -/
def CallsRename (ir : Ir) (entry : ℕ) (phis : ℕ → List PhiInfo) (doms : Dominators)
    (fuel : ℕ) : Prop :=
  ∀ W r done pushed s b, WalkInv ir entry phis doms W r done pushed s →
    Reachable (cfgEdge ir) entry b → (unrenamed doms W).length < fuel →
    (b ∉ W → EntersAt ir entry W r b s.variableMap.tops) →
    (∃ W' r' done' pushed' s', ssaRename doms fuel s b = some s' ∧
      RenameSpec ir entry phis doms W r s b W' r' done' pushed' s') ∨
    (ssaRename doms fuel s b = none ∧ ¬ LoadsSupplied ir entry phis)

/-- **The calls for the children.** -/
theorem renameChilds_spec {fuel : ℕ} (hcalls : CallsRename ir entry phis doms fuel)
    (h : WalkInv ir entry phis doms W r done pushed s) (hb : b ∈ W)
    (htops : s.variableMap.tops = r.outEnv b) (hfuel : (unrenamed doms W).length < fuel)
    (cs : List ℕ)
    (hcs : ∀ c ∈ cs, Reachable (cfgEdge ir) entry c ∧ IsIDom (cfgEdge ir) entry b c) :
    (∃ W' r' done' pushed' s', cs.foldlM (ssaRename doms fuel) s = some s' ∧
      RenameSpec ir entry phis doms W r s b W' r' done' pushed' s' ∧ ∀ c ∈ cs, c ∈ W') ∨
    (cs.foldlM (ssaRename doms fuel) s = none ∧ ¬ LoadsSupplied ir entry phis) := by
  induction cs generalizing W r done pushed s with
  | nil =>
      exact .inl ⟨W, r, done, pushed, s, rfl,
        ⟨h, rfl, fun _ => id, hb, fun c hc hnot => absurd hc hnot, fun _ _ => rfl⟩,
        fun c hc => absurd hc List.not_mem_nil⟩
  | cons c cs ih =>
      obtain ⟨hc, hidom⟩ := hcs c List.mem_cons_self
      rcases hcalls W r done pushed s c h hc hfuel fun _ => ⟨.inr ⟨b, hb, hidom, htops⟩⟩ with
        ⟨W₁, r₁, done₁, pushed₁, s₁, hrun₁, hspec₁⟩ | ⟨hnone, hnot⟩
      swap
      · refine .inr ⟨?_, hnot⟩
        rw [List.foldlM_cons, hnone]
        rfl
      have htops₁ : s₁.variableMap.tops = r₁.outEnv b := by
        rw [hspec₁.variableMap, htops, hspec₁.outEnv b hb]
      rcases ih hspec₁.inv (hspec₁.old hb) htops₁
        ((unrenamed_length_le hspec₁.old).trans_lt hfuel)
        fun x hx => hcs x (List.mem_cons_of_mem _ hx) with
        ⟨W', r', done', pushed', s', hrun, hspec, hmem⟩ | ⟨hnone, hnot⟩
      swap
      · refine .inr ⟨?_, hnot⟩
        rw [List.foldlM_cons, hrun₁]
        exact hnone
      refine .inl ⟨W', r', done', pushed', s', ?_,
        ⟨hspec.inv, hspec.variableMap.trans hspec₁.variableMap,
          fun x hx => hspec.old (hspec₁.old hx), hspec.mem, fun x hx hnot y hy hxy => ?_,
        fun x hx => (hspec.outEnv x (hspec₁.old hx)).trans (hspec₁.outEnv x hx)⟩, fun x hx => ?_⟩
      · rw [List.foldlM_cons, hrun₁]
        exact hrun
      · by_cases hx₁ : x ∈ W₁
        · exact hspec.old (hspec₁.childs x hx₁ hnot y hy hxy)
        · exact hspec.childs x hx hx₁ y hy hxy
      · rcases List.mem_cons.mp hx with rfl | hx
        · exact hspec.old hspec₁.mem
        · exact hmem x hx

/-- **A call of `ssa_rename`** with enough steps renames what is below its block, unless a load
finds no value. -/
theorem ssaRename_spec (hinput : RenameForm ir entry phis doms) (fuel : ℕ) :
    CallsRename ir entry phis doms fuel := by
  induction fuel with
  | zero => exact fun W r done pushed s b _ _ hfuel _ => absurd hfuel (Nat.not_lt_zero _)
  | succ fuel ih =>
      intro W r done pushed s b hinv hb hfuel hpos
      obtain ⟨n, hn, hnum⟩ := hinput.doms.exists_number hb
      obtain ⟨hphiList, hloadAssigns, hflag⟩ := hinv.info n b hn
      by_cases hW : b ∈ W
      · -- renamed before
        refine .inl ⟨W, r, done, pushed, s, ?_, hinv, rfl, fun _ => id, hW,
          fun c hc hnot => absurd hc hnot, fun _ _ => rfl⟩
        rw [ssaRename, hnum, Option.bind_eq_bind, Option.bind_some]
        dsimp only
        rw [if_pos (hflag.mpr hW)]
        rfl
      · have hflag' : ¬ (s.blockInfo n).isRenamed = true := fun h => hW (hflag.mp h)
        obtain ⟨vm₁, hrun₁, ⟨s₂, ir₃, r₁, pushed₁, hrun₂, hrun₃, hdone⟩ | ⟨hnone, hnot⟩⟩ :=
          renameBlock_spec hinv hinput hb hW (hpos hW) hn
        swap
        · rw [← hphiList] at hrun₁
          rw [← hloadAssigns] at hnone
          refine .inr ⟨?_, hnot⟩
          rw [ssaRename, hnum, Option.bind_eq_bind, Option.bind_some]
          dsimp only
          rw [if_neg hflag', hrun₁, Option.bind_eq_bind, Option.bind_some, hnone]
          rfl
        obtain ⟨cs, hcs, hmem⟩ := hinput.doms.childs b hb
        have hbpost : b ∈ doms.postorder := (hinput.doms.mem b).mpr hb
        rcases renameChilds_spec ih hdone.inv List.mem_cons_self hdone.tops
          (by have := unrenamed_length_lt hbpost hW; omega) cs fun c hc => (hmem c).mp hc with
          ⟨W', r', done', pushed', s', hrun₄, hspec, hchilds⟩ | ⟨hnone, hnot⟩
        swap
        · rw [← hphiList] at hrun₁
          rw [← hloadAssigns] at hrun₂
          refine .inr ⟨?_, hnot⟩
          rw [ssaRename, hnum, Option.bind_eq_bind, Option.bind_some]
          dsimp only
          rw [if_neg hflag', hrun₁, Option.bind_eq_bind, Option.bind_some, hrun₂,
            Option.bind_eq_bind, Option.bind_some, hrun₃, Option.bind_eq_bind, Option.bind_some,
            hcs, Option.bind_eq_bind, Option.bind_some, hnone]
          rfl
        obtain ⟨l, hl, hfst⟩ := hdone.pushes
        have hpop := popBlock_eq
          hspec.inv.renamed.rewritten.type hfst
          (fun a ha => by
            obtain ⟨i, hi, hia⟩ := List.mem_filterMap.mp ha
            refine (hinv.has b hb).1 i hi a ?_
            cases ht : (ir.insts i).type <;> simp_all)
          (hinv.has b hb).2
        have hvm : s'.variableMap = s.variableMap.pushAll l := hspec.variableMap.trans hl
        refine .inl ⟨W', r', done', pushed', { s' with variableMap := s.variableMap }, ?_, ?_⟩
        · rw [← hphiList] at hrun₁ hpop
          rw [← hloadAssigns] at hrun₂ hpop
          obtain ⟨vm', hpop₁, hpop₂⟩ := Option.bind_eq_some_iff.mp hpop
          rw [ssaRename, hnum, Option.bind_eq_bind, Option.bind_some]
          dsimp only
          rw [if_neg hflag', hrun₁, Option.bind_eq_bind,
            Option.bind_some, hrun₂, Option.bind_eq_bind, Option.bind_some, hrun₃,
            Option.bind_eq_bind, Option.bind_some, hcs, Option.bind_eq_bind, Option.bind_some,
            hrun₄, Option.bind_some, hvm, hpop₁, Option.bind_some, hpop₂]
          rfl
        · refine ⟨⟨hspec.inv.renamed, hspec.inv.inside, hspec.inv.closed, hspec.inv.info,
            fun c hc => hinv.has c hc⟩, rfl, fun x hx => hspec.old (List.mem_cons_of_mem _ hx),
            hspec.mem, fun x hx hnot y hy hxy => ?_, fun x hx => ?_⟩
          · by_cases hxb : x = b
            · subst hxb
              exact hchilds y ((hmem y).mpr ⟨hy, hxy⟩)
            · exact hspec.childs x hx (by simp [hxb, hnot]) y hy hxy
          · rw [hspec.outEnv x (List.mem_cons_of_mem _ hx), hdone.outEnv x hx]

/-- What is closed under the dominator tree, from the entry on, is everything reachable. -/
theorem CorrectDoms.mem_of_childs (hdoms : CorrectDoms ir entry doms) (hentry : entry ∈ W)
    (hchilds : ∀ c ∈ W, ∀ x, Reachable (cfgEdge ir) entry x →
      IsIDom (cfgEdge ir) entry c x → x ∈ W) {c : ℕ}
    (hc : Reachable (cfgEdge ir) entry c) : c ∈ W := by
  induction c, hc using Reachable.dominator_induction with
  | step c hc ih =>
      by_cases hce : c = entry
      · rw [hce]
        exact hentry
      · obtain ⟨d, -, hidom⟩ := hdoms.idom c hc hce
        exact hchilds d (ih d hidom.strict) c hc hidom

/-- **`ssa_rename` for the entry** renames every reachable block, unless a load finds no
value. -/
theorem ssaRename_renamed (hinput : RenameForm ir entry phis doms) {blockInfo : ℕ → BlockInfo}
    {vm : VariableMap} {fuel : ℕ}
    (hinfo : ∀ n c : ℕ, doms.postorder[n]? = some c → (blockInfo n).phiList = phis c ∧
      (blockInfo n).loadAssigns = loadAssigns ir (ir.blocks c) ∧ (blockInfo n).isRenamed = false)
    (hhas : ∀ c, Reachable (cfgEdge ir) entry c → (∀ i ∈ ir.blocks c, ∀ a,
      (ir.insts i).type = .assignVar a → vm.Has a) ∧ ∀ p ∈ phis c, vm.Has p.rId)
    (htops : vm.tops = fun _ => none) (hfuel : doms.elementCount < fuel) :
    (∃ r done pushed s, ssaRename doms fuel ⟨ir, blockInfo, vm⟩ entry = some s ∧
      Renamed ir entry phis (Reachable (cfgEdge ir) entry) r done pushed s.ir ∧
      s.variableMap = vm ∧ ∀ n c : ℕ, doms.postorder[n]? = some c →
        (s.blockInfo n).phiList = phis c ∧ (s.blockInfo n).isRenamed = true) ∨
    (ssaRename doms fuel ⟨ir, blockInfo, vm⟩ entry = none ∧ ¬ LoadsSupplied ir entry phis) := by
  have hstart : WalkInv ir entry phis doms [] ⟨.inst, fun _ _ => none, fun _ _ => none⟩ [] []
      ⟨ir, blockInfo, vm⟩ := by
    have hmem : ∀ {α : Type} {x : α}, ¬ x ∈ ([] : List α) := List.not_mem_nil
    refine ⟨⟨.start hinput.heap, fun i => ?_, fun _ _ => rfl, fun i hi => absurd hi hmem,
      fun e => ?_, fun b hb => absurd hb hmem, fun b hb => absurd hb hmem⟩,
      fun c hc => absurd hc hmem, fun c hc => absurd hc hmem, fun n c hn => ?_, hhas⟩
    · exact iff_of_false hmem fun ⟨b, hb, _⟩ => hmem hb
    · exact iff_of_false hmem fun ⟨hb, _⟩ => hmem hb
    · obtain ⟨hphi, hla, hflag⟩ := hinfo n c hn
      exact ⟨hphi, hla, iff_of_false (by simp [hflag]) hmem⟩
  have hlt : (unrenamed doms []).length < fuel := by
    refine lt_of_le_of_lt (List.length_filter_le _ _) ?_
    rw [← hinput.doms.count]
    exact hfuel
  refine (ssaRename_spec hinput fuel [] _ [] [] ⟨ir, blockInfo, vm⟩ entry hstart .root hlt
    fun _ => ⟨.inl ⟨rfl, htops⟩⟩).imp_left ?_
  rintro ⟨W, r, done, pushed, s, hrun, hspec⟩
  have hmem : ∀ c, c ∈ W ↔ Reachable (cfgEdge ir) entry c := fun c =>
    ⟨hspec.inv.inside c, hinput.doms.mem_of_childs hspec.mem
      fun c hc => hspec.childs c hc List.not_mem_nil⟩
  have hW : (· ∈ W) = Reachable (cfgEdge ir) entry := funext fun c => propext (hmem c)
  refine ⟨r, done, pushed, s, hrun, ?_, hspec.variableMap, fun n c hn => ?_⟩
  · rw [← hW]
    exact hspec.inv.renamed
  · obtain ⟨hphi, -, hflag⟩ := hspec.inv.info n c hn
    exact ⟨hphi, hflag.mpr ((hmem c).mpr
      ((hinput.doms.mem c).mp (List.mem_iff_getElem?.mpr ⟨n, hn⟩)))⟩

end Walk
