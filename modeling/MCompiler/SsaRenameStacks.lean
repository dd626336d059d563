/-
# The stacks of `ssa_rename`

For any function, any dominator tree and any block, a call of `ssa_rename` pops in its end
the registers that it pushed, since nothing in between changes the type of an instruction.

* `renameDown` : the call up to its last two loops, which pop;
* `ssaRename_restores` : a call that returns leaves the stacks as they were;
* `analyzeBlocks_empty` : all stacks are empty before `ssa_rename` for the entry.
-/
import MCompiler.SsaRename

/-! ## Before the pops -/

/-- `ssa_rename` for a block that is not renamed yet, up to the loops that pop. -/
def renameDown (doms : Dominators) (fuel : ℕ) (s : RenameState) (current number : ℕ) :
    Option RenameState := do
  let bInfo := s.blockInfo number
  let blockInfo := Function.update s.blockInfo number { bInfo with isRenamed := true }
  let variableMap ← bInfo.phiList.foldlM
    (fun variableMap phi => pushValue variableMap phi.rId (.inst phi.phiInst)) s.variableMap
  let s ← bInfo.loadAssigns.foldlM renameInst ⟨s.ir, blockInfo, variableMap⟩
  let ir ← (blockSuccessors s.ir current).foldlM
    (pushSuccessor doms s.blockInfo s.variableMap current) s.ir
  (← dominatorChilds doms current).foldlM (ssaRename doms fuel) { s with ir := ir }

/-- The loops that pop the values of the block. -/
def renamePops (bInfo : BlockInfo) (s : RenameState) : Option VariableMap := do
  let variableMap ← bInfo.loadAssigns.foldlM (popInst s.ir) s.variableMap
  bInfo.phiList.foldlM (fun variableMap phi => popValue variableMap phi.rId) variableMap

/-- `ssa_rename` goes down and pops. -/
theorem ssaRename_succ (doms : Dominators) (fuel : ℕ) (s : RenameState) (current : ℕ) :
    ssaRename doms (fuel + 1) s current = (do
      let number ← blockNumber doms current
      if (s.blockInfo number).isRenamed then return s
      let s' ← renameDown doms fuel s current number
      let variableMap ← renamePops (s.blockInfo number) s'
      return { s' with variableMap := variableMap }) := by
  rw [ssaRename]
  apply bind_congr
  intro number
  dsimp only
  split
  · rfl
  · simp only [renameDown, renamePops, bind_assoc]

/-! ## The types stay -/

/-- No instruction has changed its type. -/
def SameTypes (ir ir' : Ir) : Prop := ∀ i, (ir'.insts i).type = (ir.insts i).type

section Types

variable {ir ir' ir'' : Ir}

theorem SameTypes.refl (ir : Ir) : SameTypes ir ir := fun _ => rfl

theorem SameTypes.trans (h : SameTypes ir ir') (h' : SameTypes ir' ir'') : SameTypes ir ir'' :=
  fun i => (h' i).trans (h i)

/-- The instructions of a list of steps. -/
theorem sameTypes_foldlM {α : Type} {f : Ir → α → Option Ir}
    (hf : ∀ ir a ir', f ir a = some ir' → SameTypes ir ir') (l : List α)
    (h : l.foldlM f ir = some ir') : SameTypes ir ir' := by
  induction l generalizing ir with
  | nil =>
      cases h
      exact .refl _
  | cons a l ih =>
      rw [List.foldlM_cons] at h
      obtain ⟨mid, hmid, hrest⟩ := Option.bind_eq_some_iff.mp h
      exact (hf ir a mid hmid).trans (ih hrest)

theorem sameTypes_writeUse (ir : Ir) (u : Use) (value : Value) :
    SameTypes ir (ir.writeUse u value) := by
  intro i
  unfold Ir.writeUse
  dsimp only
  by_cases hi : i = u.inst
  · subst hi
    rw [Function.update_self]
  · rw [Function.update_of_ne hi]

theorem sameTypes_instSetUse {inst useOffset : ℕ} {value : Value}
    (h : instSetUse ir inst useOffset value = some ir') : SameTypes ir ir' := by
  unfold instSetUse at h
  dsimp only at h
  split at h
  · cases h
  · cases h
    exact sameTypes_writeUse (ir.addUse value _) _ _
  · cases h
    exact sameTypes_writeUse ((ir.deattachUse _ _).addUse value _) _ _

theorem sameTypes_replaceAllUses (ir : Ir) (value replacement : Value) :
    SameTypes ir (valueReplaceAllUses ir value replacement) := by
  unfold valueReplaceAllUses
  generalize ir.uses value = l
  induction l generalizing ir with
  | nil => exact .refl ir
  | cons u l ih =>
      rw [List.foldl_cons]
      refine SameTypes.trans ?_ (ih _)
      exact sameTypes_writeUse ((ir.deattachUse value u).addUse replacement u) _ _

theorem sameTypes_phiInsertValue {phi block : ℕ} {value : Value}
    (h : instPhiInsertValue ir phi block value = some ir') : SameTypes ir ir' := by
  unfold instPhiInsertValue at h
  split at h
  · cases h
    exact .refl ir
  · obtain ⟨mid, hmid, hlast⟩ := Option.bind_eq_some_iff.mp h
    refine SameTypes.trans ?_ ((sameTypes_instSetUse hmid).trans (sameTypes_instSetUse hlast))
    intro i
    dsimp only
    by_cases hi : i = phi
    · subst hi
      rw [Function.update_self]
    · rw [Function.update_of_ne hi]

theorem sameTypes_pushSuccessor {doms : Dominators} {blockInfo : ℕ → BlockInfo}
    {vm : VariableMap} {current sblock : ℕ}
    (h : pushSuccessor doms blockInfo vm current ir sblock = some ir') : SameTypes ir ir' := by
  unfold pushSuccessor at h
  obtain ⟨number, -, hphis⟩ := Option.bind_eq_some_iff.mp h
  refine sameTypes_foldlM ?_ _ hphis
  intro ir phi ir' hphi
  unfold pushPhi at hphi
  split at hphi
  · cases hphi
    exact .refl ir
  · exact sameTypes_phiInsertValue hphi

end Types

/-- The lists of the blocks are as they were. -/
def SameLists (blockInfo blockInfo' : ℕ → BlockInfo) : Prop :=
  ∀ n, (blockInfo' n).phiList = (blockInfo n).phiList ∧
    (blockInfo' n).loadAssigns = (blockInfo n).loadAssigns

section Lists

variable {blockInfo blockInfo' blockInfo'' : ℕ → BlockInfo}

theorem SameLists.refl (blockInfo : ℕ → BlockInfo) : SameLists blockInfo blockInfo :=
  fun _ => ⟨rfl, rfl⟩

theorem SameLists.trans (h : SameLists blockInfo blockInfo')
    (h' : SameLists blockInfo' blockInfo'') : SameLists blockInfo blockInfo'' :=
  fun n => ⟨(h' n).1.trans (h n).1, (h' n).2.trans (h n).2⟩

theorem sameLists_renamed (blockInfo : ℕ → BlockInfo) (number : ℕ) :
    SameLists blockInfo
      (Function.update blockInfo number { blockInfo number with isRenamed := true }) := by
  intro n
  by_cases hn : n = number
  · rw [hn, Function.update_self]
    exact ⟨rfl, rfl⟩
  · rw [Function.update_of_ne hn]
    exact ⟨rfl, rfl⟩

end Lists

/-! ## What is pushed -/

section Pushes

variable {vm vm' : VariableMap}

theorem has_of_pushValue {a : ℕ} {v : Value} (h : pushValue vm a v = some vm') : vm.Has a := by
  unfold pushValue at h
  intro hnone
  rw [hnone] at h
  cases h

/-- The phis of the block. -/
theorem pushPhiValues_eq (phis : List PhiInfo)
    (h : phis.foldlM (fun vm phi => pushValue vm phi.rId (.inst phi.phiInst)) vm = some vm') :
    (∀ p ∈ phis, vm.Has p.rId) ∧
      vm' = vm.pushAll (phis.map fun p => (p.rId, .inst p.phiInst)) := by
  suffices hgen : ∀ l, phis.foldlM (fun vm phi => pushValue vm phi.rId (.inst phi.phiInst))
      (vm.pushAll l) = some vm' → (∀ p ∈ phis, vm.Has p.rId) ∧
        vm' = vm.pushAll (l ++ phis.map fun p => (p.rId, .inst p.phiInst)) by
    have hnil := hgen []
    rw [pushAll_nil] at hnil
    exact hnil h
  clear h
  induction phis with
  | nil =>
      intro l h
      cases h
      exact ⟨fun p hp => absurd hp List.not_mem_nil, by rw [List.map_nil, List.append_nil]⟩
  | cons p phis ih =>
      intro l h
      rw [List.foldlM_cons] at h
      obtain ⟨mid, hmid, hrest⟩ := Option.bind_eq_some_iff.mp h
      have hhas : vm.Has p.rId := pushAll_has.mp (has_of_pushValue hmid)
      rw [pushValue_pushAll hhas] at hmid
      cases hmid
      obtain ⟨hall, hvm⟩ := ih _ hrest
      refine ⟨List.forall_mem_cons.mpr ⟨hhas, hall⟩, ?_⟩
      rw [hvm, List.append_assoc]
      rfl

theorem pushAll_append (l l' : List (ℕ × Value)) :
    (vm.pushAll l).pushAll l' = vm.pushAll (l ++ l') := by
  unfold VariableMap.pushAll
  dsimp only
  congr 1
  funext key
  cases vm.regs key with
  | none => rfl
  | some rInfo => simp [List.filter_append]

/-- **The loads and assigns of the block**: only the assigns push. -/
theorem renameInsts_eq (l : List ℕ) {s s' : RenameState} {ir : Ir} (hir : SameTypes ir s.ir)
    (h : l.foldlM renameInst s = some s') :
    ∃ pushes, s'.variableMap = s.variableMap.pushAll pushes ∧
      pushes.map Prod.fst = assignRegs ir l ∧ (∀ a ∈ assignRegs ir l, s.variableMap.Has a) ∧
      SameTypes ir s'.ir ∧ loadAssigns ir l = l ∧ s'.blockInfo = s.blockInfo := by
  suffices hgen : ∀ (before : List (ℕ × Value)) (vm : VariableMap) (s : RenameState),
      SameTypes ir s.ir → s.variableMap = vm.pushAll before → l.foldlM renameInst s = some s' →
      ∃ pushes, s'.variableMap = vm.pushAll (before ++ pushes) ∧
        pushes.map Prod.fst = assignRegs ir l ∧ (∀ a ∈ assignRegs ir l, vm.Has a) ∧
        SameTypes ir s'.ir ∧ loadAssigns ir l = l ∧ s'.blockInfo = s.blockInfo from
    hgen [] s.variableMap s hir pushAll_nil.symm h
  clear h hir
  induction l with
  | nil =>
      intro before vm s hir hvm h
      cases h
      exact ⟨[], by rw [List.append_nil, hvm], rfl, fun a ha => absurd ha List.not_mem_nil, hir, rfl,
        rfl⟩
  | cons i l ih =>
      intro before vm s hir hvm h
      rw [List.foldlM_cons] at h
      obtain ⟨mid, hmid, hrest⟩ := Option.bind_eq_some_iff.mp h
      have htype := hir i
      unfold renameInst at hmid
      split at hmid
      · -- a load
        rename_i rId hload
        obtain ⟨value, -, hmid⟩ := Option.bind_eq_some_iff.mp hmid
        cases hmid
        rw [hload] at htype
        obtain ⟨pushes, hpushes, hregs, hhas, htypes, hall, hinfo⟩ := ih before vm
          ⟨instRemove (valueReplaceAllUses s.ir (.inst i) value) i, s.blockInfo, s.variableMap⟩
          (hir.trans (sameTypes_replaceAllUses s.ir _ _)) hvm hrest
        have hkeep : assignRegs ir (i :: l) = assignRegs ir l := by simp [assignRegs, ← htype]
        rw [hkeep]
        refine ⟨pushes, hpushes, hregs, hhas, htypes, ?_, hinfo⟩
        unfold loadAssigns at hall ⊢
        rw [List.filter_cons_of_pos (by simp [← htype, InstType.isLoadAssign]), hall]
      · -- an assign
        rename_i rId hassign
        obtain ⟨value, -, hmid⟩ := Option.bind_eq_some_iff.mp hmid
        obtain ⟨vm₁, hpush, hmid⟩ := Option.bind_eq_some_iff.mp hmid
        cases hmid
        rw [hassign] at htype
        rw [hvm] at hpush
        have hreg : vm.Has rId := pushAll_has.mp (has_of_pushValue hpush)
        rw [pushValue_pushAll hreg] at hpush
        cases hpush
        obtain ⟨pushes, hpushes, hregs, hhas, htypes, hall, hinfo⟩ :=
          ih (before ++ [(rId, value)]) vm
            ⟨instRemove s.ir i, s.blockInfo, vm.pushAll (before ++ [(rId, value)])⟩ hir rfl hrest
        have hkeep : assignRegs ir (i :: l) = rId :: assignRegs ir l := by
          simp [assignRegs, ← htype]
        rw [hkeep]
        refine ⟨(rId, value) :: pushes, ?_, by rw [List.map_cons, hregs],
          List.forall_mem_cons.mpr ⟨hreg, hhas⟩, htypes, ?_, hinfo⟩
        · rw [hpushes, List.append_assoc]
          rfl
        · unfold loadAssigns at hall ⊢
          rw [List.filter_cons_of_pos (by simp [← htype, InstType.isLoadAssign]), hall]
      · cases hmid

end Pushes

/-! ## Calls -/

/-- What a call leaves as it was. -/
structure Restores (s s' : RenameState) : Prop where
  variableMap : s'.variableMap = s.variableMap
  types : SameTypes s.ir s'.ir
  lists : SameLists s.blockInfo s'.blockInfo

theorem Restores.refl (s : RenameState) : Restores s s := ⟨rfl, .refl _, .refl _⟩

theorem Restores.trans {s₁ s₂ s₃ : RenameState} (h : Restores s₁ s₂) (h' : Restores s₂ s₃) :
    Restores s₁ s₃ :=
  ⟨h'.variableMap.trans h.variableMap, h.types.trans h'.types, h.lists.trans h'.lists⟩

section Calls

variable {doms : Dominators} {fuel : ℕ}

/-- The calls for the children. -/
theorem restores_foldlM (hcalls : ∀ s b s', ssaRename doms fuel s b = some s' → Restores s s')
    (l : List ℕ) {s s' : RenameState} (h : l.foldlM (ssaRename doms fuel) s = some s') :
    Restores s s' := by
  induction l generalizing s with
  | nil =>
      cases h
      exact .refl _
  | cons b l ih =>
      rw [List.foldlM_cons] at h
      obtain ⟨mid, hmid, hrest⟩ := Option.bind_eq_some_iff.mp h
      exact (hcalls s b mid hmid).trans (ih hrest)

/-- **The pops** give back what the call has pushed. -/
theorem renamePops_eq (hcalls : ∀ s b s', ssaRename doms fuel s b = some s' → Restores s s')
    {s s' : RenameState} {current number : ℕ}
    (h : renameDown doms fuel s current number = some s') :
    renamePops (s.blockInfo number) s' = some s.variableMap ∧ SameTypes s.ir s'.ir ∧
      SameLists s.blockInfo s'.blockInfo := by
  unfold renameDown at h
  obtain ⟨vm₁, hphis, h⟩ := Option.bind_eq_some_iff.mp h
  obtain ⟨s₂, hinsts, h⟩ := Option.bind_eq_some_iff.mp h
  obtain ⟨ir₃, hsuccessors, h⟩ := Option.bind_eq_some_iff.mp h
  obtain ⟨childs, -, h⟩ := Option.bind_eq_some_iff.mp h
  obtain ⟨hphiHas, hvm₁⟩ := pushPhiValues_eq _ hphis
  have hstart : SameTypes s.ir s.ir := .refl _
  obtain ⟨pushes, hpushes, hregs, hhas, htypes, hall, hinfo⟩ :=
    @renameInsts_eq (s.blockInfo number).loadAssigns ⟨s.ir, _, vm₁⟩ s₂ s.ir hstart hinsts
  have hdown := restores_foldlM hcalls childs h
  have htypes₃ : SameTypes s₂.ir ir₃ :=
    sameTypes_foldlM (fun _ _ _ h => sameTypes_pushSuccessor h) _ hsuccessors
  have hsame : SameTypes s.ir s'.ir := (htypes.trans htypes₃).trans hdown.types
  refine ⟨?_, hsame, ?_⟩
  swap
  · have hlists := hdown.lists
    dsimp only at hlists hinfo
    rw [hinfo] at hlists
    exact (sameLists_renamed s.blockInfo number).trans hlists
  have hstack : s'.variableMap = s.variableMap.pushAll
      (((s.blockInfo number).phiList.map fun p => (p.rId, .inst p.phiInst)) ++ pushes) := by
    rw [hdown.variableMap]
    show s₂.variableMap = _
    rw [hpushes]
    dsimp only
    rw [hvm₁, pushAll_append]
  have hpop := @popBlock_eq s.ir s'.ir s.variableMap
    (((s.blockInfo number).phiList.map fun p => (p.rId, .inst p.phiInst)) ++ pushes) hsame
    (s.blockInfo number).loadAssigns (s.blockInfo number).phiList
    (by rw [List.map_append, hregs, List.map_map]; rfl)
    (fun a ha => by
      have hpushed := hhas a ha
      dsimp only at hpushed
      rw [hvm₁] at hpushed
      exact pushAll_has.mp hpushed)
    hphiHas
  rw [hall] at hpop
  unfold renamePops
  rw [hstack]
  exact hpop

/-- **A call that returns leaves the stacks as they were.** -/
theorem ssaRename_restores (doms : Dominators) (fuel : ℕ) :
    ∀ s b s', ssaRename doms fuel s b = some s' → Restores s s' := by
  induction fuel with
  | zero =>
      intro s b s' h
      cases h
  | succ fuel ih =>
      intro s b s' h
      rw [ssaRename_succ] at h
      obtain ⟨number, -, h⟩ := Option.bind_eq_some_iff.mp h
      split at h
      · cases h
        exact .refl s
      · obtain ⟨s₁, hdown, h⟩ := Option.bind_eq_some_iff.mp h
        obtain ⟨hpops, htypes, hlists⟩ := renamePops_eq ih hdown
        rw [hpops] at h
        cases h
        exact ⟨rfl, htypes, hlists⟩

end Calls

/-! ## In the conversion -/

/-- No register has a value. -/
def VariableMap.StacksEmpty (vm : VariableMap) : Prop :=
  ∀ key rInfo, vm.regs key = some rInfo → rInfo.valueStack = []

theorem setReg_empty {vm : VariableMap} (h : vm.StacksEmpty) (key : ℤ) {rInfo : RegInfo}
    (hrInfo : rInfo.valueStack = []) : (vm.setReg key rInfo).StacksEmpty := by
  intro key' rInfo' hkey
  unfold VariableMap.setReg at hkey
  dsimp only at hkey
  by_cases heq : key' = key
  · rw [heq, Function.update_self] at hkey
    exact Option.some.inj hkey ▸ hrInfo
  · rw [Function.update_of_ne heq] at hkey
    exact h key' rInfo' hkey

theorem registerReg_empty {vm : VariableMap} (h : vm.StacksEmpty) (rBlockInfo : RegBlockInfo) :
    (registerReg vm rBlockInfo).StacksEmpty := by
  unfold registerReg
  dsimp only
  split
  · have hnew := @setReg_empty vm h (toInt rBlockInfo.rId)
      ⟨rBlockInfo.rId, rBlockInfo.lastAssign.toList, []⟩ rfl
    exact hnew
  · rename_i rInfo hrInfo
    exact setReg_empty h _ (h _ rInfo hrInfo)

/-- Step 1 leaves the stacks empty. -/
theorem analyzeBlocks_empty {ir : Ir} {doms : Dominators} {blockInfo : ℕ → BlockInfo}
    {vm : VariableMap} (h : analyzeBlocks ir doms = some (blockInfo, vm)) : vm.StacksEmpty := by
  have hregs : ∀ (l : List RegBlockInfo) (vm : VariableMap), vm.StacksEmpty →
      (l.foldl registerReg vm).StacksEmpty := by
    intro l
    induction l with
    | nil => exact fun vm h => h
    | cons r l ih => exact fun vm h => ih _ (registerReg_empty h r)
  have hgen : ∀ (l : List ℕ) (s : (ℕ → BlockInfo) × VariableMap), s.2.StacksEmpty →
      l.foldlM (analyzeStep ir doms) s = some (blockInfo, vm) → vm.StacksEmpty := by
    intro l
    induction l with
    | nil =>
        intro s hs h
        cases h
        exact hs
    | cons i l ih =>
        intro s hs h
        rw [List.foldlM_cons] at h
        obtain ⟨mid, hmid, hrest⟩ := Option.bind_eq_some_iff.mp h
        unfold analyzeStep at hmid
        obtain ⟨block, -, hmid⟩ := Option.bind_eq_some_iff.mp hmid
        cases hmid
        exact ih _ (hregs _ _ hs) hrest
  unfold analyzeBlocks at h
  exact hgen _ _ (fun key rInfo hkey => by cases hkey) h

