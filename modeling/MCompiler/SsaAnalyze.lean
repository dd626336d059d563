/-
# Collecting loads and assigns

`analyzeBlocks_spec` : step 1 of `ssa_convert` ends with empty lists of phis, the loads and
assigns of every block, and for every register that a reachable block loads or assigns a
`reg_info` with an empty stack and, for each block that assigns it, one assign of the
block (`Analyzed`).  `regList_length_le` : a block has no more registers than loads
and assigns.
-/
import MCompiler.Lib.Loops
import MCompiler.SsaRename

open FlowGraph

/-! ## The registers of a block -/

section ChangeRegInfo

variable {rId : ℕ} {change : RegBlockInfo → RegBlockInfo}

/-- What `_getOrCreateRegInfo` finds or creates is changed, the others stay. -/
theorem of_mem_changeRegInfo {e : RegBlockInfo} {l : List RegBlockInfo}
    (h : e ∈ changeRegInfo rId change l) :
    e ∈ l ∨ ∃ e₀, (e₀ = ⟨rId, none⟩ ∨ (e₀ ∈ l ∧ toInt e₀.rId = toInt rId)) ∧ e = change e₀ := by
  induction l with
  | nil => exact .inr ⟨_, .inl rfl, List.mem_singleton.mp h⟩
  | cons r l ih =>
      rw [changeRegInfo] at h
      split at h
      · rename_i hr
        rcases List.mem_cons.mp h with rfl | h
        · exact .inr ⟨r, .inr ⟨List.mem_cons_self, hr⟩, rfl⟩
        · exact .inl (List.mem_cons_of_mem _ h)
      · rcases List.mem_cons.mp h with rfl | h
        · exact .inl List.mem_cons_self
        · rcases ih h with h | ⟨e₀, he₀, heq⟩
          · exact .inl (List.mem_cons_of_mem _ h)
          · exact .inr ⟨e₀, he₀.imp id fun ⟨hmem, hkey⟩ => ⟨List.mem_cons_of_mem _ hmem, hkey⟩, heq⟩

theorem mem_changeRegInfo_of_mem {e : RegBlockInfo} {l : List RegBlockInfo} (h : e ∈ l) :
    e ∈ changeRegInfo rId change l ∨
      (toInt e.rId = toInt rId ∧ change e ∈ changeRegInfo rId change l) := by
  induction l with
  | nil => cases h
  | cons r l ih =>
      rw [changeRegInfo]
      split
      · rename_i hr
        rcases List.mem_cons.mp h with rfl | h
        · exact .inr ⟨hr, List.mem_cons_self⟩
        · exact .inl (List.mem_cons_of_mem _ h)
      · rcases List.mem_cons.mp h with rfl | h
        · exact .inl List.mem_cons_self
        · exact (ih h).imp (List.mem_cons_of_mem _) fun ⟨hkey, hmem⟩ =>
            ⟨hkey, List.mem_cons_of_mem _ hmem⟩

theorem exists_mem_changeRegInfo (rId : ℕ) (change : RegBlockInfo → RegBlockInfo)
    (l : List RegBlockInfo) :
    ∃ e₀ : RegBlockInfo, toInt e₀.rId = toInt rId ∧ change e₀ ∈ changeRegInfo rId change l := by
  induction l with
  | nil => exact ⟨⟨rId, none⟩, rfl, List.mem_cons_self⟩
  | cons r l ih =>
      rw [changeRegInfo]
      split
      · rename_i hr
        exact ⟨r, hr, List.mem_cons_self⟩
      · exact ih.imp fun e₀ h => ⟨h.1, List.mem_cons_of_mem _ h.2⟩

theorem changeRegInfo_length_le (rId : ℕ) (change : RegBlockInfo → RegBlockInfo)
    (l : List RegBlockInfo) : (changeRegInfo rId change l).length ≤ l.length + 1 := by
  induction l with
  | nil => exact le_rfl
  | cons r l ih =>
      rw [changeRegInfo]
      split
      · exact Nat.le_succ _
      · exact Nat.succ_le_succ ih

/-- The registers of a block are different ints. -/
theorem changeRegInfo_pairwise (hrId : ∀ e, (change e).rId = e.rId) {l : List RegBlockInfo}
    (h : l.Pairwise fun e e' => toInt e.rId ≠ toInt e'.rId) :
    (changeRegInfo rId change l).Pairwise fun e e' => toInt e.rId ≠ toInt e'.rId := by
  induction l with
  | nil => exact List.pairwise_singleton _ _
  | cons r l ih =>
      obtain ⟨hr, hl⟩ := List.pairwise_cons.mp h
      rw [changeRegInfo]
      split
      · refine List.pairwise_cons.mpr ⟨fun e he => ?_, hl⟩
        rw [hrId]
        exact hr e he
      · rename_i hne
        refine List.pairwise_cons.mpr ⟨fun e he => ?_, ih hl⟩
        rcases of_mem_changeRegInfo he with he | ⟨e₀, rfl | ⟨he₀, -⟩, rfl⟩
        · exact hr e he
        · rw [hrId]
          exact hne
        · rw [hrId]
          exact hr e₀ he₀

end ChangeRegInfo

/-- `regList` after the instructions `l`. -/
structure RegListOk (ir : Ir) (l : List ℕ) (regList : List RegBlockInfo) : Prop where
  reg : ∀ e ∈ regList, ∃ i ∈ l, (ir.insts i).type.rId = some e.rId
  lastAssign : ∀ e ∈ regList, ∀ i, e.lastAssign = some i →
    i ∈ l ∧ ∃ a : ℕ, (ir.insts i).type = .assignVar a ∧ toInt a = toInt e.rId
  mem : ∀ i ∈ l, ∀ a : ℕ, (ir.insts i).type.rId = some a → ∃ e ∈ regList,
    toInt e.rId = toInt a ∧ ((ir.insts i).type = .assignVar a → e.lastAssign ≠ none)
  distinct : regList.Pairwise fun e e' => toInt e.rId ≠ toInt e'.rId

section RegList

variable {ir : Ir} {l : List ℕ} {regList : List RegBlockInfo} {i a : ℕ}

theorem RegListOk.other (h : RegListOk ir l regList) (htype : (ir.insts i).type.rId = none) :
    RegListOk ir (l ++ [i]) regList where
  reg e he := by
    obtain ⟨j, hj, hr⟩ := h.reg e he
    exact ⟨j, List.mem_append_left _ hj, hr⟩
  lastAssign e he j hj := by
    obtain ⟨hmem, hr⟩ := h.lastAssign e he j hj
    exact ⟨List.mem_append_left _ hmem, hr⟩
  mem j hj a' ha' := by
    rcases List.mem_append.mp hj with hj | hj
    · exact h.mem j hj a' ha'
    · rw [List.mem_singleton.mp hj, htype] at ha'
      cases ha'
  distinct := h.distinct

/-- One more load or assign. -/
theorem RegListOk.change (h : RegListOk ir l regList) (htype : (ir.insts i).type.rId = some a)
    {change : RegBlockInfo → RegBlockInfo} (hrId : ∀ e, (change e).rId = e.rId)
    (hlast : ∀ e, (change e).lastAssign = e.lastAssign ∨
      ((change e).lastAssign = some i ∧ (ir.insts i).type = .assignVar a))
    (hassign : (ir.insts i).type = .assignVar a → ∀ e, (change e).lastAssign = some i) :
    RegListOk ir (l ++ [i]) (changeRegInfo a change regList) := by
  have hi : i ∈ l ++ [i] := List.mem_append_right _ List.mem_cons_self
  have hsome : ∀ e, e.lastAssign ≠ none → (change e).lastAssign ≠ none := by
    intro e he
    rcases hlast e with heq | ⟨heq, -⟩
    · rwa [heq]
    · rw [heq]
      exact Option.some_ne_none i
  refine ⟨fun e he => ?_, fun e he j hj => ?_, fun j hj a' ha' => ?_,
    changeRegInfo_pairwise hrId h.distinct⟩
  · rcases of_mem_changeRegInfo he with he | ⟨e₀, rfl | ⟨he₀, -⟩, rfl⟩
    · obtain ⟨j, hj, hr⟩ := h.reg e he
      exact ⟨j, List.mem_append_left _ hj, hr⟩
    · exact ⟨i, hi, by rw [hrId, htype]⟩
    · obtain ⟨j, hj, hr⟩ := h.reg e₀ he₀
      exact ⟨j, List.mem_append_left _ hj, by rw [hrId, hr]⟩
  · rcases of_mem_changeRegInfo he with he | ⟨e₀, he₀, rfl⟩
    · obtain ⟨hmem, hr⟩ := h.lastAssign e he j hj
      exact ⟨List.mem_append_left _ hmem, hr⟩
    · rcases hlast e₀ with heq | ⟨heq, hia⟩
      · rw [heq] at hj
        rcases he₀ with rfl | ⟨he₀, -⟩
        · cases hj
        · obtain ⟨hmem, hr⟩ := h.lastAssign e₀ he₀ j hj
          rw [hrId]
          exact ⟨List.mem_append_left _ hmem, hr⟩
      · rw [heq] at hj
        obtain rfl := Option.some.inj hj
        refine ⟨hi, a, hia, ?_⟩
        rw [hrId]
        rcases he₀ with rfl | ⟨-, hkey⟩
        · rfl
        · exact hkey.symm
  · rcases List.mem_append.mp hj with hj | hj
    · obtain ⟨e, he, hkey, hne⟩ := h.mem j hj a' ha'
      rcases mem_changeRegInfo_of_mem he with he' | ⟨-, he'⟩
      · exact ⟨e, he', hkey, hne⟩
      · exact ⟨change e, he', by rw [hrId, hkey], fun ht => hsome e (hne ht)⟩
    · obtain rfl := List.mem_singleton.mp hj
      obtain rfl : a = a' := Option.some.inj (htype.symm.trans ha')
      obtain ⟨e₀, hkey, he₀⟩ := exists_mem_changeRegInfo a change regList
      refine ⟨change e₀, he₀, by rw [hrId, hkey], fun ht => ?_⟩
      rw [hassign ht]
      exact Option.some_ne_none j

end RegList

/-- What step 1 finds out about a block. -/
structure BlockAnalyzed (ir : Ir) (l : List ℕ) (bInfo : BlockInfo) : Prop where
  regList : RegListOk ir l bInfo.regList
  collected : bInfo.loadAssigns = loadAssigns ir l
  phiList : bInfo.phiList = []
  isRenamed : bInfo.isRenamed = false

theorem BlockAnalyzed.step {ir : Ir} {l : List ℕ} {bInfo : BlockInfo}
    (h : BlockAnalyzed ir l bInfo) (i : ℕ) :
    BlockAnalyzed ir (l ++ [i]) (analyzeInst ir bInfo i) := by
  have hla : loadAssigns ir (l ++ [i]) = bInfo.loadAssigns ++ loadAssigns ir [i] := by
    rw [loadAssigns_append, h.collected]
  unfold analyzeInst
  split
  · rename_i a htype
    refine ⟨h.regList.change (a := a) (by rw [htype]; rfl) (fun _ => rfl) (fun _ => .inl rfl)
      fun hassign => ?_, ?_, h.phiList, h.isRenamed⟩
    · rw [htype] at hassign
      cases hassign
    · rw [hla]
      simp [loadAssigns, InstType.isLoadAssign, htype]
  · rename_i a htype
    refine ⟨h.regList.change (a := a) (by rw [htype]; rfl) (fun _ => rfl)
      (fun _ => .inr ⟨rfl, htype⟩) fun _ _ => rfl, ?_, h.phiList, h.isRenamed⟩
    rw [hla]
    simp [loadAssigns, InstType.isLoadAssign, htype]
  · rename_i hload hassign
    refine ⟨h.regList.other (InstType.rId_eq_none hload hassign), ?_, h.phiList, h.isRenamed⟩
    rw [hla]
    cases htype : (ir.insts i).type <;> simp_all [loadAssigns, InstType.isLoadAssign]

theorem analyzeBlock_spec (ir : Ir) (block : ℕ) :
    BlockAnalyzed ir (ir.blocks block) (analyzeBlock ir block) := by
  unfold analyzeBlock
  induction ir.blocks block using List.reverseRecOn with
  | nil =>
      have hmem : ∀ {α : Type} {x : α}, ¬ x ∈ ([] : List α) := List.not_mem_nil
      exact ⟨⟨fun e he => absurd he hmem, fun e he => absurd he hmem, fun i hi => absurd hi hmem,
        .nil⟩, rfl, rfl, rfl⟩
  | append_singleton l i ih =>
      rw [List.foldl_append]
      exact ih.step i

theorem regList_length_le (ir : Ir) (block : ℕ) :
    (analyzeBlock ir block).regList.length ≤ (analyzeBlock ir block).loadAssigns.length := by
  unfold analyzeBlock
  induction ir.blocks block using List.reverseRecOn with
  | nil => exact le_rfl
  | append_singleton l i ih =>
      rw [List.foldl_append]
      show (analyzeInst ir _ i).regList.length ≤ (analyzeInst ir _ i).loadAssigns.length
      unfold analyzeInst
      split
      · rw [List.length_append]
        exact (changeRegInfo_length_le _ _ _).trans (Nat.succ_le_succ ih)
      · rw [List.length_append]
        exact (changeRegInfo_length_le _ _ _).trans (Nat.succ_le_succ ih)
      · exact ih

/-! ## The registers of the function -/

/-- The `reg_info` objects come from the blocks `bs'`, and the blocks `bs` have theirs. -/
structure RegsOk (ir : Ir) (bs bs' : List ℕ) (vm : VariableMap) : Prop where
  nodup : vm.list.Nodup
  mem_list : ∀ key, key ∈ vm.list ↔ vm.regs key ≠ none
  key : ∀ key rInfo, vm.regs key = some rInfo → toInt rInfo.rId = key
  stack : ∀ key rInfo, vm.regs key = some rInfo → rInfo.valueStack = []
  reg : ∀ key rInfo, vm.regs key = some rInfo →
    ∃ b ∈ bs', ∃ i ∈ ir.blocks b, (ir.insts i).type.rId = some rInfo.rId
  assigns : ∀ key rInfo, vm.regs key = some rInfo → ∀ i ∈ rInfo.assigns,
    ∃ b ∈ bs', i ∈ ir.blocks b ∧ ∃ a : ℕ, (ir.insts i).type = .assignVar a ∧ toInt a = key
  has : ∀ b ∈ bs, ∀ i ∈ ir.blocks b, ∀ a : ℕ, (ir.insts i).type.rId = some a →
    ∃ rInfo, vm.regs (toInt a) = some rInfo ∧
      ((ir.insts i).type = .assignVar a → ∃ j ∈ rInfo.assigns, j ∈ ir.blocks b)

/-- The object that a register of a block has in the end. -/
def registered (vm : VariableMap) (e : RegBlockInfo) : RegInfo :=
  match vm.regs (toInt e.rId) with
  | none => { rId := e.rId, assigns := e.lastAssign.toList }
  | some rInfo => { rInfo with assigns := rInfo.assigns ++ e.lastAssign.toList }

section Register

variable {ir : Ir} {bs bs' : List ℕ} {vm : VariableMap} {e : RegBlockInfo}

theorem registerReg_regs :
    (registerReg vm e).regs = Function.update vm.regs (toInt e.rId) (some (registered vm e)) := by
  unfold registerReg registered
  dsimp only
  generalize toInt (e.rId : ℤ) = key
  cases vm.regs key <;> rfl

theorem registerReg_list : (registerReg vm e).list =
    if vm.regs (toInt e.rId) = none then vm.list ++ [toInt e.rId] else vm.list := by
  unfold registerReg
  dsimp only
  generalize toInt (e.rId : ℤ) = key
  cases vm.regs key with
  | none => rfl
  | some rInfo => rfl

theorem mem_registered {i : ℕ} : i ∈ (registered vm e).assigns ↔
    (∃ rInfo, vm.regs (toInt e.rId) = some rInfo ∧ i ∈ rInfo.assigns) ∨ e.lastAssign = some i := by
  unfold registered
  cases h : vm.regs (toInt e.rId) <;> simp

/-- **One register of a block.** -/
theorem RegsOk.register (h : RegsOk ir bs bs' vm)
    (hreg : ∃ b ∈ bs', ∃ i ∈ ir.blocks b, (ir.insts i).type.rId = some e.rId)
    (hlast : ∀ i, e.lastAssign = some i → ∃ b ∈ bs', i ∈ ir.blocks b ∧
      ∃ a : ℕ, (ir.insts i).type = .assignVar a ∧ toInt a = toInt e.rId) :
    RegsOk ir bs bs' (registerReg vm e) := by
  have hcases : ∀ {key rInfo}, (registerReg vm e).regs key = some rInfo →
      (key = toInt e.rId ∧ rInfo = registered vm e) ∨ vm.regs key = some rInfo := by
    intro key rInfo hr
    rw [registerReg_regs] at hr
    by_cases hkey : key = toInt e.rId
    · rw [hkey, Function.update_self] at hr
      exact .inl ⟨hkey, (Option.some.inj hr).symm⟩
    · rw [Function.update_of_ne hkey] at hr
      exact .inr hr
  refine ⟨?_, fun key => ?_, fun key rInfo hr => ?_, fun key rInfo hr => ?_, fun key rInfo hr => ?_,
    fun key rInfo hr i hi => ?_, fun b hb i hi a ha => ?_⟩
  · rw [registerReg_list]
    split
    · rename_i hnone
      refine List.nodup_append.mpr ⟨h.nodup, List.nodup_singleton _, fun x hx y hy hxy => ?_⟩
      rw [List.mem_singleton.mp hy] at hxy
      rw [hxy] at hx
      exact (h.mem_list _).mp hx hnone
    · exact h.nodup
  · rw [registerReg_list, registerReg_regs]
    by_cases hkey : key = toInt e.rId
    · rw [hkey, Function.update_self]
      refine iff_of_true ?_ (Option.some_ne_none _)
      split
      · exact List.mem_append_right _ List.mem_cons_self
      · rename_i hsome
        exact (h.mem_list _).mpr hsome
    · rw [Function.update_of_ne hkey, ← h.mem_list]
      split
      · simp [hkey]
      · rfl
  · rcases hcases hr with ⟨hkey, rfl⟩ | hr
    · unfold registered
      split
      · exact hkey.symm
      · rename_i r hr'
        exact (h.key _ r hr').trans hkey.symm
    · exact h.key key rInfo hr
  · rcases hcases hr with ⟨hkey, rfl⟩ | hr
    · unfold registered
      split
      · rfl
      · rename_i r hr'
        exact h.stack _ r hr'
    · exact h.stack key rInfo hr
  · rcases hcases hr with ⟨hkey, rfl⟩ | hr
    · unfold registered
      split
      · exact hreg
      · rename_i r hr'
        exact h.reg _ r hr'
    · exact h.reg key rInfo hr
  · rcases hcases hr with ⟨hkey, rfl⟩ | hr
    · rw [hkey]
      rcases mem_registered.mp hi with ⟨r, hr', hi⟩ | hi
      · exact h.assigns _ r hr' i hi
      · exact hlast i hi
    · exact h.assigns key rInfo hr i hi
  · obtain ⟨rInfo, hr, hassign⟩ := h.has b hb i hi a ha
    rw [registerReg_regs]
    by_cases hkey : toInt (a : ℤ) = toInt (e.rId : ℤ)
    · rw [hkey, Function.update_self]
      refine ⟨_, rfl, fun ht => ?_⟩
      obtain ⟨j, hj, hjb⟩ := hassign ht
      exact ⟨j, mem_registered.mpr (.inl ⟨rInfo, hkey ▸ hr, hj⟩), hjb⟩
    · rw [Function.update_of_ne hkey]
      exact ⟨rInfo, hr, hassign⟩

/-- What has been registered stays. -/
theorem registered_mono {e' : RegBlockInfo}
    (h : ∃ rInfo, vm.regs (toInt e'.rId) = some rInfo ∧
      ∀ i, e'.lastAssign = some i → i ∈ rInfo.assigns) :
    ∃ rInfo, (registerReg vm e).regs (toInt e'.rId) = some rInfo ∧
      ∀ i, e'.lastAssign = some i → i ∈ rInfo.assigns := by
  obtain ⟨rInfo, hr, hi⟩ := h
  rw [registerReg_regs]
  by_cases hkey : toInt (e'.rId : ℤ) = toInt (e.rId : ℤ)
  · rw [hkey, Function.update_self]
    exact ⟨_, rfl, fun i hlast => mem_registered.mpr (.inl ⟨rInfo, hkey ▸ hr, hi i hlast⟩)⟩
  · rw [Function.update_of_ne hkey]
    exact ⟨rInfo, hr, hi⟩

/-- **The registers of a block.** -/
theorem RegsOk.registerAll {b : ℕ} (hb : b ∈ bs') {regList : List RegBlockInfo}
    (hlist : RegListOk ir (ir.blocks b) regList) (l : List RegBlockInfo) (hl : l ⊆ regList)
    (h : RegsOk ir bs bs' vm) :
    RegsOk ir bs bs' (l.foldl registerReg vm) ∧ ∀ e ∈ l,
      ∃ rInfo, (l.foldl registerReg vm).regs (toInt e.rId) = some rInfo ∧
        ∀ i, e.lastAssign = some i → i ∈ rInfo.assigns := by
  induction l using List.reverseRecOn with
  | nil => exact ⟨h, fun e he => absurd he List.not_mem_nil⟩
  | append_singleton l e ih =>
      obtain ⟨ihok, ihmem⟩ := ih fun x hx => hl (List.mem_append_left _ hx)
      have he : e ∈ regList := hl (List.mem_append_right _ List.mem_cons_self)
      rw [List.foldl_append]
      constructor
      · apply ihok.register
        · obtain ⟨i, hi, hr⟩ := hlist.reg e he
          exact ⟨b, hb, i, hi, hr⟩
        · intro i hi
          obtain ⟨hmem, ha⟩ := hlist.lastAssign e he i hi
          exact ⟨b, hb, hmem, ha⟩
      · intro e' he'
        rcases List.mem_append.mp he' with he' | he'
        · exact registered_mono (ihmem e' he')
        · obtain rfl := List.mem_singleton.mp he'
          refine ⟨registered (l.foldl registerReg vm) e', ?_, fun i hi => mem_registered.mpr (.inr hi)⟩
          show (registerReg _ e').regs _ = _
          rw [registerReg_regs, Function.update_self]

/-- **One assign for each block.**  The block `b` is new, and each of its registers adds at
most one of its assigns. -/
theorem registerAll_apart {b : ℕ} {l : List RegBlockInfo}
    (hdistinct : l.Pairwise fun e e' => toInt e.rId ≠ toInt e'.rId)
    (hlast : ∀ e ∈ l, ∀ i, e.lastAssign = some i → (ir.insts i).parent = b)
    (h : ∀ key rInfo, vm.regs key = some rInfo →
      (rInfo.assigns.map fun i => (ir.insts i).parent).Nodup ∧ ((∃ e ∈ l, toInt e.rId = key) →
        b ∉ rInfo.assigns.map fun i => (ir.insts i).parent)) (key : ℤ) (rInfo : RegInfo)
    (hr : (l.foldl registerReg vm).regs key = some rInfo) :
    (rInfo.assigns.map fun i => (ir.insts i).parent).Nodup := by
  induction l generalizing vm with
  | nil => exact (h key rInfo hr).1
  | cons e l ih =>
      obtain ⟨he, hl⟩ := List.pairwise_cons.mp hdistinct
      refine ih hl (fun e' he' => hlast e' (List.mem_cons_of_mem _ he')) ?_ hr
      intro key' rInfo' hr'
      rw [registerReg_regs] at hr'
      by_cases hkey : key' = toInt e.rId
      · rw [hkey, Function.update_self] at hr'
        obtain rfl := Option.some.inj hr'
        refine ⟨?_, fun ⟨e', he', heq⟩ => absurd (hkey ▸ heq).symm (he e' he')⟩
        have hnew : (e.lastAssign.toList.map fun i => (ir.insts i).parent).Nodup := by
          cases e.lastAssign with
          | none => exact List.nodup_nil
          | some i => exact List.nodup_singleton _
        unfold registered
        split
        · exact hnew
        · rename_i r hr₀
          obtain ⟨hnodup, hb⟩ := h _ r hr₀
          rw [List.map_append]
          refine List.nodup_append.mpr ⟨hnodup, hnew, fun x hx y hy hxy => ?_⟩
          obtain ⟨i, hi, rfl⟩ := List.mem_map.mp hy
          rw [hlast e List.mem_cons_self i (Option.mem_toList.mp hi)] at hxy
          exact hb ⟨e, List.mem_cons_self, rfl⟩ (hxy ▸ hx)
      · rw [Function.update_of_ne hkey] at hr'
        obtain ⟨hnodup, hb⟩ := h key' rInfo' hr'
        exact ⟨hnodup, fun ⟨e', he', heq⟩ => hb ⟨e', List.mem_cons_of_mem _ he', heq⟩⟩

/-- **One block.** -/
theorem RegsOk.block {b : ℕ} (h : RegsOk ir bs bs vm) :
    RegsOk ir (bs ++ [b]) (bs ++ [b]) ((analyzeBlock ir b).regList.foldl registerReg vm) := by
  have hstart : RegsOk ir bs (bs ++ [b]) vm := by
    refine ⟨h.nodup, h.mem_list, h.key, h.stack, fun key rInfo hr => ?_, fun key rInfo hr i hi => ?_,
      h.has⟩
    · obtain ⟨c, hc, hi⟩ := h.reg key rInfo hr
      exact ⟨c, List.mem_append_left _ hc, hi⟩
    · obtain ⟨c, hc, hi⟩ := h.assigns key rInfo hr i hi
      exact ⟨c, List.mem_append_left _ hc, hi⟩
  have hspec := (analyzeBlock_spec ir b).regList
  have hb : b ∈ bs ++ [b] := List.mem_append_right _ List.mem_cons_self
  obtain ⟨hok, hmem⟩ := hstart.registerAll hb hspec _ (List.Subset.refl _)
  refine ⟨hok.nodup, hok.mem_list, hok.key, hok.stack, hok.reg, hok.assigns, fun c hc i hi a ha => ?_⟩
  rcases List.mem_append.mp hc with hc | hc
  · exact hok.has c hc i hi a ha
  · obtain rfl := List.mem_singleton.mp hc
    obtain ⟨e, he, hkey, hassign⟩ := hspec.mem i hi a ha
    obtain ⟨rInfo, hr, hlast⟩ := hmem e he
    rw [hkey] at hr
    refine ⟨rInfo, hr, fun ht => ?_⟩
    obtain ⟨j, hj⟩ := Option.ne_none_iff_exists'.mp (hassign ht)
    exact ⟨j, hlast j hj, (hspec.lastAssign e he j hj).1⟩

theorem RegsOk.block_apart {b : ℕ} (h : RegsOk ir bs bs vm) (hheap : HeapOk ir) (hb : b ∉ bs)
    (hapart : ∀ key rInfo, vm.regs key = some rInfo →
      (rInfo.assigns.map fun i => (ir.insts i).parent).Nodup) (key : ℤ) (rInfo : RegInfo)
    (hr : ((analyzeBlock ir b).regList.foldl registerReg vm).regs key = some rInfo) :
    (rInfo.assigns.map fun i => (ir.insts i).parent).Nodup := by
  have hspec := (analyzeBlock_spec ir b).regList
  refine registerAll_apart hspec.distinct
    (fun e he i hi => hheap.parent b i (hspec.lastAssign e he i hi).1) ?_ key rInfo hr
  intro key' rInfo' hr'
  refine ⟨hapart key' rInfo' hr', fun _ hmem => ?_⟩
  obtain ⟨i, hi, hib⟩ := List.mem_map.mp hmem
  obtain ⟨c, hc, hic, -⟩ := h.assigns key' rInfo' hr' i hi
  rw [← hib, hheap.parent c i hic] at hb
  exact hb hc

end Register

/-! ## The first register -/

/-- The first register that a list of instructions loads or assigns. -/
def firstRId (ir : Ir) (l : List ℕ) : Option ℕ := l.findSome? fun i => (ir.insts i).type.rId

/-- The first register that the blocks load or assign, in the order of their numbers. -/
def firstVariable (ir : Ir) (doms : Dominators) : Option ℕ :=
  firstRId ir (doms.postorder.flatMap ir.blocks)

section First

variable {ir : Ir} {vm : VariableMap}

theorem changeRegInfo_head {rId : ℕ} (change : RegBlockInfo → RegBlockInfo)
    (hrId : ∀ e, (change e).rId = e.rId) (l : List RegBlockInfo) :
    (changeRegInfo rId change l).head?.map RegBlockInfo.rId =
      (l.head?.map RegBlockInfo.rId).or (some rId) := by
  cases l with
  | nil => exact congrArg some (hrId ⟨rId, none⟩)
  | cons e l =>
      rw [changeRegInfo]
      split
      · exact congrArg some (hrId e)
      · rfl

theorem analyzeInst_head (bInfo : BlockInfo) (i : ℕ) :
    (analyzeInst ir bInfo i).regList.head?.map RegBlockInfo.rId =
      (bInfo.regList.head?.map RegBlockInfo.rId).or (ir.insts i).type.rId := by
  unfold analyzeInst
  split
  · rename_i a htype
    rw [htype]
    exact changeRegInfo_head id (fun _ => rfl) _
  · rename_i a htype
    rw [htype]
    exact changeRegInfo_head (fun rInfo => { rInfo with lastAssign := some i }) (fun _ => rfl) _
  · rename_i hload hassign
    rw [InstType.rId_eq_none hload hassign, Option.or_none]

theorem analyzeBlock_head (b : ℕ) :
    (analyzeBlock ir b).regList.head?.map RegBlockInfo.rId = firstRId ir (ir.blocks b) := by
  unfold analyzeBlock firstRId
  induction ir.blocks b using List.reverseRecOn with
  | nil => rfl
  | append_singleton l i ih =>
      rw [List.foldl_append, List.findSome?_append]
      show (analyzeInst ir _ i).regList.head?.map RegBlockInfo.rId = _
      rw [analyzeInst_head, ih]
      cases hi : (ir.insts i).type.rId <;> simp [List.findSome?, hi]

theorem registerReg_head (hvm : vm.list = [] → ∀ key, vm.regs key = none) (e : RegBlockInfo) :
    (registerReg vm e).list.head? = vm.list.head?.or (some (toInt e.rId)) := by
  rw [registerReg_list]
  generalize toInt (e.rId : ℤ) = key
  cases hlist : vm.list with
  | nil =>
      rw [if_pos (hvm hlist _)]
      rfl
  | cons key' l =>
      split <;> rfl

theorem registerAll_head (l : List RegBlockInfo)
    (hvm : vm.list = [] → ∀ key, vm.regs key = none) :
    (l.foldl registerReg vm).list.head? =
      vm.list.head?.or ((l.head?.map RegBlockInfo.rId).map fun a : ℕ => toInt a) := by
  induction l generalizing vm with
  | nil => exact (Option.or_none).symm
  | cons e l ih =>
      have hne : (registerReg vm e).list ≠ [] := by
        rw [registerReg_list]
        split
        · exact List.append_ne_nil_of_right_ne_nil _ (List.cons_ne_nil _ _)
        · rename_i hsome
          exact fun hnil => hsome (hvm hnil _)
      have hcons : ((e :: l).head?.map RegBlockInfo.rId).map (fun a : ℕ => toInt a) =
          some (toInt e.rId) := rfl
      rw [List.foldl_cons, ih fun hnil => absurd hnil hne, registerReg_head hvm, hcons,
        Option.or_assoc, Option.some_or]

end First

/-! ## All blocks -/

/-- What step 1 ends with. -/
structure Analyzed (ir : Ir) (doms : Dominators) (blockInfo : ℕ → BlockInfo)
    (vm : VariableMap) : Prop where
  info : ∀ n b : ℕ, doms.postorder[n]? = some b → BlockAnalyzed ir (ir.blocks b) (blockInfo n)
  regList : ∀ n b : ℕ, doms.postorder[n]? = some b →
    (blockInfo n).regList.length ≤ (blockInfo n).loadAssigns.length
  apart : ∀ key rInfo, vm.regs key = some rInfo →
    (rInfo.assigns.map fun i => (ir.insts i).parent).Nodup
  regs : RegsOk ir doms.postorder doms.postorder vm
  first : vm.list.head? = (firstVariable ir doms).map fun a : ℕ => toInt a

/-- **Step 1 of `ssa_convert`.** -/
theorem analyzeBlocks_spec {ir : Ir} (hheap : HeapOk ir) {doms : Dominators}
    (hnodup : doms.postorder.Nodup) (hcount : doms.elementCount = doms.postorder.length) :
    ∃ blockInfo vm, analyzeBlocks ir doms = some (blockInfo, vm) ∧
      Analyzed ir doms blockInfo vm := by
  set I : ℕ → (ℕ → BlockInfo) × VariableMap → Prop := fun n s =>
    (∀ m < n, ∀ b : ℕ, doms.postorder[m]? = some b → s.1 m = analyzeBlock ir b) ∧
      RegsOk ir (doms.postorder.take n) (doms.postorder.take n) s.2 ∧
      (∀ key rInfo, s.2.regs key = some rInfo →
        (rInfo.assigns.map fun i => (ir.insts i).parent).Nodup) ∧
      s.2.list.head? = (firstRId ir ((doms.postorder.take n).flatMap ir.blocks)).map
        fun a : ℕ => toInt a with hI
  have hstep : ∀ n < doms.postorder.length, ∀ s, I n s →
      ∃ s', analyzeStep ir doms s n = some s' ∧ I (n + 1) s' := by
    rintro n hn ⟨blockInfo, vm⟩ ⟨hinfo, hregs, hapart, hfirst⟩
    have hget : doms.postorder[n]? = some doms.postorder[n] := List.getElem?_eq_getElem hn
    refine ⟨(Function.update blockInfo n (analyzeBlock ir doms.postorder[n]),
      (analyzeBlock ir doms.postorder[n]).regList.foldl registerReg vm), ?_,
      fun m hm b hb => ?_, ?_, ?_, ?_⟩
    · rw [analyzeStep, hget]
      rfl
    · dsimp only at hinfo ⊢
      by_cases hmn : m = n
      · subst hmn
        rw [Function.update_self, Option.some.inj (hget.symm.trans hb)]
      · rw [Function.update_of_ne hmn]
        exact hinfo m (by omega) b hb
    · rw [List.take_succ_eq_append_getElem hn]
      exact hregs.block
    · have htake := hnodup.sublist (List.take_sublist (n + 1) doms.postorder)
      rw [List.take_succ_eq_append_getElem hn] at htake
      have hnot := (List.nodup_append.mp htake).2.2
      exact hregs.block_apart hheap (fun hmem => hnot _ hmem _ List.mem_cons_self rfl) hapart
    · have hvm : vm.list = [] → ∀ key, vm.regs key = none := by
        intro hnil key
        by_contra hne
        have hmem := (hregs.mem_list key).mpr hne
        rw [hnil] at hmem
        cases hmem
      dsimp only at hfirst ⊢
      rw [registerAll_head _ hvm, analyzeBlock_head, hfirst, List.take_succ_eq_append_getElem hn,
        List.flatMap_append, List.flatMap_singleton]
      unfold firstRId
      rw [List.findSome?_append]
      cases List.findSome? (fun i => (ir.insts i).type.rId)
        ((doms.postorder.take n).flatMap ir.blocks) <;> rfl
  have hstart : I 0 (fun _ => {}, ⟨fun _ => none, []⟩) := by
    have hmem : ∀ {α : Type} {x : α}, ¬ x ∈ ([] : List α) := List.not_mem_nil
    have hnone : ∀ {rInfo : RegInfo}, ¬ none = some rInfo := fun h => by cases h
    refine ⟨fun m hm => absurd hm (Nat.not_lt_zero _), ?_, fun _ _ h => absurd h hnone, rfl⟩
    rw [List.take_zero]
    exact ⟨List.nodup_nil, fun key => iff_of_false hmem fun h => h rfl,
      fun _ _ h => absurd h hnone, fun _ _ h => absurd h hnone, fun _ _ h => absurd h hnone,
      fun _ _ h => absurd h hnone, fun b hb => absurd hb hmem⟩
  obtain ⟨⟨blockInfo, vm⟩, hrun, hinfo, hregs, hapart, hfirst⟩ := Loop.foldlM_range hstep hstart
  rw [List.take_length] at hregs hfirst
  have hblock : ∀ n b : ℕ, doms.postorder[n]? = some b → blockInfo n = analyzeBlock ir b :=
    fun n b hb => hinfo n (List.getElem?_eq_some_iff.mp hb).1 b hb
  refine ⟨blockInfo, vm, ?_, ⟨fun n b hb => ?_, fun n b hb => ?_, hapart, hregs, hfirst⟩⟩
  · rw [analyzeBlocks, hcount]
    exact hrun
  · rw [hblock n b hb]
    exact analyzeBlock_spec ir b
  · rw [hblock n b hb]
    exact regList_length_le ir b
