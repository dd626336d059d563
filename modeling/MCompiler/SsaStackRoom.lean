/-
# Room on the value stacks

`ssa_rename` for a block starts with the values that the blocks above it in the dominator tree
have pushed.  So the height of a stack in a block is the number of the pushes on the way to it
(`pathPushes`), and no stack overruns its buffer if and only if this number stays small on every
way.

* `ssaRenameStored_of_low` : a call whose ways are all small stays within the stacks;
* `low_of_ssaRenameStored` : the way to each block that a call within the stacks renames is small.
-/
import Mathlib.Data.Option.Basic
import MCompiler.Lib.Loops
import MCompiler.SsaRenameStacks
import MCompiler.SsaStored

/-! ## Heights -/

/-- No stack has more values than its buffer holds. -/
def VariableMap.Low (vm : VariableMap) : Prop := ∀ a : ℕ, vm.height (toInt a) ≤ 250

section Heights

variable {vm vm' : VariableMap} {a : ℕ} {v : Value}

theorem pushValue_height (h : pushValue vm a v = some vm') (key : ℤ) :
    vm'.height key = vm.height key + if toInt a = key then 1 else 0 := by
  obtain ⟨rInfo, hr, rfl⟩ := Option.map_eq_some_iff.mp h
  unfold VariableMap.height VariableMap.setReg
  dsimp only
  by_cases hkey : toInt (a : ℤ) = key
  · subst hkey
    rw [Function.update_self, hr, if_pos rfl]
    rfl
  · rw [Function.update_of_ne (Ne.symm hkey), if_neg hkey]
    rfl

theorem low_of_pushValue (h : pushValue vm a v = some vm') (hlow : vm'.Low) : vm.Low := by
  intro b
  have hb := hlow b
  rw [pushValue_height h] at hb
  omega

/-- **A push that is stored** is one that leaves the stack low. -/
theorem pushValueStored_iff (hlow : vm.Low) :
    pushValueStored vm a v = some vm' ↔ pushValue vm a v = some vm' ∧ vm'.Low := by
  unfold pushValueStored
  rw [Option.bind_eq_bind, Option.bind_eq_some_iff]
  constructor
  · rintro ⟨u, hguard, h⟩
    refine ⟨h, fun b => ?_⟩
    have hroom := pointersStored_init_iff.mp ((Option.guard_eq_some' _).mp hguard)
    have hb := hlow b
    rw [pushValue_height h]
    split
    · rename_i heq
      rwa [heq] at hroom
    · exact hb
  · rintro ⟨h, hlow'⟩
    refine ⟨(), (Option.guard_eq_some' _).mpr (pointersStored_init_iff.mpr ?_), h⟩
    have ha := hlow' a
    rwa [pushValue_height h, if_pos rfl] at ha

theorem low_of_renameInst {s s' : RenameState} {i : ℕ} (h : renameInst s i = some s')
    (hlow : s'.variableMap.Low) : s.variableMap.Low := by
  unfold renameInst at h
  split at h
  · obtain ⟨value, -, h⟩ := Option.bind_eq_some_iff.mp h
    obtain rfl := Option.some.inj h
    exact hlow
  · obtain ⟨value, -, h⟩ := Option.bind_eq_some_iff.mp h
    obtain ⟨vm', hpush, h⟩ := Option.bind_eq_some_iff.mp h
    obtain rfl := Option.some.inj h
    exact low_of_pushValue hpush hlow
  · cases h

theorem renameInstStored_iff {s s' : RenameState} {i : ℕ} (hlow : s.variableMap.Low) :
    renameInstStored s i = some s' ↔ renameInst s i = some s' ∧ s'.variableMap.Low := by
  unfold renameInstStored
  split
  · rename_i rId htype
    unfold renameInst
    rw [htype]
    show (s.ir.operand ⟨i, 0⟩).bind _ = some s' ↔ (s.ir.operand ⟨i, 0⟩).bind _ = some s' ∧ _
    cases s.ir.operand ⟨i, 0⟩ with
    | none => exact iff_of_false nofun fun h => nomatch h.1
    | some value =>
        show (pushValueStored s.variableMap rId value).bind _ = some s' ↔
          (pushValue s.variableMap rId value).bind _ = some s' ∧ _
        rw [Option.bind_eq_some_iff, Option.bind_eq_some_iff]
        constructor
        · rintro ⟨vm', hpush, h⟩
          obtain ⟨hpush', hlow'⟩ := (pushValueStored_iff hlow).mp hpush
          refine ⟨⟨vm', hpush', h⟩, ?_⟩
          rw [← Option.some.inj h]
          exact hlow'
        · rintro ⟨⟨vm', hpush, h⟩, hlow'⟩
          rw [← Option.some.inj h] at hlow'
          exact ⟨vm', (pushValueStored_iff hlow).mpr ⟨hpush, hlow'⟩, h⟩
  · rename_i hassign
    refine (and_iff_left_of_imp fun h => ?_).symm
    -- a load pushes nothing
    unfold renameInst at h
    split at h
    · obtain ⟨value, -, h⟩ := Option.bind_eq_some_iff.mp h
      obtain rfl := Option.some.inj h
      exact hlow
    · rename_i rId htype
      exact absurd htype (hassign rId)
    · cases h

end Heights

/-! ## The pushes of a block -/

/-- The loops that push the values of the block. -/
def renamePushes (push : VariableMap → ℕ → Value → Option VariableMap)
    (rename : RenameState → ℕ → Option RenameState) (s : RenameState) (number : ℕ) :
    Option RenameState := do
  let bInfo := s.blockInfo number
  let blockInfo := Function.update s.blockInfo number { bInfo with isRenamed := true }
  let variableMap ← bInfo.phiList.foldlM
    (fun variableMap phi => push variableMap phi.rId (.inst phi.phiInst)) s.variableMap
  bInfo.loadAssigns.foldlM rename ⟨s.ir, blockInfo, variableMap⟩

/-- A call pushes, gives the phis of the successors their values, goes down and pops. -/
theorem renameWalk_succ (push : VariableMap → ℕ → Value → Option VariableMap)
    (rename : RenameState → ℕ → Option RenameState) (doms : Dominators) (fuel : ℕ)
    (s : RenameState) (current : ℕ) : renameWalk push rename doms (fuel + 1) s current = (do
      let number ← blockNumber doms current
      if (s.blockInfo number).isRenamed then return s
      let s₁ ← renamePushes push rename s number
      let ir ← (blockSuccessors s₁.ir current).foldlM
        (pushSuccessor doms s₁.blockInfo s₁.variableMap current) s₁.ir
      let s₂ ← (← dominatorChilds doms current).foldlM (renameWalk push rename doms fuel)
        { s₁ with ir := ir }
      let variableMap ← renamePops (s.blockInfo number) s₂
      return { s₂ with variableMap := variableMap }) := by
  rw [renameWalk]
  apply bind_congr
  intro number
  dsimp only
  split
  · rfl
  · simp only [renamePushes, renamePops, bind_assoc]

/-- The registers whose values a block pushes. -/
def pushedRegs (ir : Ir) (bInfo : BlockInfo) : List ℕ :=
  bInfo.phiList.map PhiInfo.rId ++ assignRegs ir bInfo.loadAssigns

/-- The number of values that a block pushes on a stack. -/
def blockPushes (doms : Dominators) (s : RenameState) (key : ℤ) (b : ℕ) : ℕ :=
  (blockNumber doms b).elim 0 fun n =>
    (pushedRegs s.ir (s.blockInfo n)).countP fun a : ℕ => toInt a = key

/-- The number of values that some blocks push on a stack. -/
def pathPushes (doms : Dominators) (s : RenameState) (key : ℤ) (l : List ℕ) : ℕ :=
  (l.map (blockPushes doms s key)).sum

section Pushes

variable {doms : Dominators} {s s' : RenameState} {number : ℕ}

theorem pushAll_height {vm : VariableMap} {l : List (ℕ × Value)}
    (hhas : ∀ a ∈ l.map Prod.fst, vm.Has a) (key : ℤ) : (vm.pushAll l).height key =
      vm.height key + (l.map Prod.fst).countP fun a : ℕ => toInt a = key := by
  unfold VariableMap.height VariableMap.pushAll
  dsimp only
  cases hr : vm.regs key with
  | none =>
      -- nothing is pushed on a stack that is not there
      rw [List.countP_eq_zero.mpr fun a ha hkey => hhas a ha ?_]
      · rfl
      · rw [of_decide_eq_true hkey, hr]
  | some rInfo =>
      rw [List.countP_map, List.countP_eq_length_filter]
      simp only [Option.map_some, Option.getD_some, List.length_append, List.length_reverse,
        List.length_map, Function.comp_def]
      exact Nat.add_comm _ _

/-- **What a block pushes.** -/
theorem renamePushes_spec (h : renamePushes pushValue renameInst s number = some s') :
    (∀ key, s'.variableMap.height key = s.variableMap.height key +
      (pushedRegs s.ir (s.blockInfo number)).countP fun a : ℕ => toInt a = key) ∧
      SameTypes s.ir s'.ir ∧ s'.blockInfo =
        Function.update s.blockInfo number { s.blockInfo number with isRenamed := true } := by
  obtain ⟨vm₁, hphis, hinsts⟩ := Option.bind_eq_some_iff.mp h
  obtain ⟨hphiHas, hvm₁⟩ := pushPhiValues_eq _ hphis
  obtain ⟨pushes, hpushes, hregs, hhas, htypes, -, hinfo⟩ :=
    @renameInsts_eq (s.blockInfo number).loadAssigns ⟨s.ir, _, vm₁⟩ s' s.ir (.refl _) hinsts
  refine ⟨fun key => ?_, htypes, hinfo⟩
  have hphi := @pushAll_height s.variableMap
    ((s.blockInfo number).phiList.map fun p => (p.rId, .inst p.phiInst)) (by
      rw [List.map_map]
      exact List.forall_mem_map.mpr hphiHas) key
  rw [List.map_map] at hphi
  rw [hpushes, pushAll_height (hregs ▸ hhas), hvm₁, hphi, hregs, Nat.add_assoc]
  unfold pushedRegs
  rw [List.countP_append]
  rfl

/-- **The pushes of a block are stored** if they leave the stacks low. -/
theorem renamePushes_stored_iff (hlow : s.variableMap.Low) :
    renamePushes pushValueStored renameInstStored s number = some s' ↔
      renamePushes pushValue renameInst s number = some s' ∧ s'.variableMap.Low := by
  have hphis : ∀ vm₁, (s.blockInfo number).phiList.foldlM
      (fun vm phi => pushValueStored vm phi.rId (.inst phi.phiInst)) s.variableMap = some vm₁ ↔
      (s.blockInfo number).phiList.foldlM
        (fun vm phi => pushValue vm phi.rId (.inst phi.phiInst)) s.variableMap = some vm₁ ∧
        vm₁.Low := fun vm₁ =>
    Loop.foldlM_guarded (fun vm phi vm' h => pushValueStored_iff h)
      (fun vm phi vm' h => low_of_pushValue h) _ hlow
  have hinsts : ∀ s₁ : RenameState, s₁.variableMap.Low →
      ((s.blockInfo number).loadAssigns.foldlM renameInstStored s₁ = some s' ↔
        (s.blockInfo number).loadAssigns.foldlM renameInst s₁ = some s' ∧
          s'.variableMap.Low) := fun s₁ h =>
    Loop.foldlM_guarded (P := fun s => s.variableMap.Low)
      (fun s i s' h => renameInstStored_iff h) (fun s i s' h => low_of_renameInst h) _ h
  unfold renamePushes
  dsimp only
  rw [Option.bind_eq_bind, Option.bind_eq_some_iff, Option.bind_eq_some_iff]
  constructor
  · rintro ⟨vm₁, hvm₁, h⟩
    obtain ⟨hvm₁', hlow₁⟩ := (hphis vm₁).mp hvm₁
    obtain ⟨h', hlow'⟩ := (hinsts _ hlow₁).mp h
    exact ⟨⟨vm₁, hvm₁', h'⟩, hlow'⟩
  · rintro ⟨⟨vm₁, hvm₁, h⟩, hlow'⟩
    have hlow₁ : vm₁.Low := Loop.foldlM_back (P := fun s => s.variableMap.Low)
      (fun s i s' h => low_of_renameInst h) _ h hlow'
    exact ⟨vm₁, (hphis vm₁).mpr ⟨hvm₁, hlow₁⟩, (hinsts _ hlow₁).mpr ⟨h, hlow'⟩⟩

theorem assignRegs_sameTypes {ir ir' : Ir} (h : SameTypes ir ir') (l : List ℕ) :
    assignRegs ir' l = assignRegs ir l := by
  unfold assignRegs
  apply List.filterMap_congr
  intro i _
  rw [h i]

/-- The pushes are the same in every state of a call. -/
theorem pathPushes_congr (htypes : SameTypes s.ir s'.ir)
    (hlists : SameLists s.blockInfo s'.blockInfo) (key : ℤ) (l : List ℕ) :
    pathPushes doms s' key l = pathPushes doms s key l := by
  have hblock : blockPushes doms s' key = blockPushes doms s key := by
    funext b
    unfold blockPushes
    cases blockNumber doms b with
    | none => rfl
    | some n =>
        show List.countP _ (pushedRegs s'.ir (s'.blockInfo n)) = List.countP _ _
        unfold pushedRegs
        rw [(hlists n).1, (hlists n).2, assignRegs_sameTypes htypes]
  unfold pathPushes
  rw [hblock]

end Pushes

/-! ## Calls -/

/-- A way down the dominator tree to the block `b`; the list has the blocks above it. -/
inductive ChildPath (doms : Dominators) (root : ℕ) : ℕ → List ℕ → Prop
  | root : ChildPath doms root root []
  | step {b c : ℕ} {l cs : List ℕ} : ChildPath doms root b l → dominatorChilds doms b = some cs →
      c ∈ cs → ChildPath doms root c (b :: l)

theorem ChildPath.above {doms : Dominators} {b c x : ℕ} {l cs : List ℕ}
    (hcs : dominatorChilds doms b = some cs) (hc : c ∈ cs) (h : ChildPath doms c x l) :
    ChildPath doms b x (l ++ [b]) := by
  induction h with
  | root => exact .step .root hcs hc
  | step _ hchilds hmem ih => exact .step ih hchilds hmem

/-- The way to the block `b`, with its own pushes, leaves every stack low. -/
def LowOn (doms : Dominators) (s : RenameState) (b : ℕ) (l : List ℕ) : Prop :=
  ∀ a : ℕ, s.variableMap.height (toInt a) + pathPushes doms s (toInt a) (b :: l) ≤ 250

section Calls

variable {doms : Dominators} {fuel : ℕ} {s s' : RenameState} {b : ℕ}

theorem pushValue_of_stored {vm vm' : VariableMap} {a : ℕ} {v : Value}
    (h : pushValueStored vm a v = some vm') : pushValue vm a v = some vm' := by
  obtain ⟨-, -, h⟩ := Option.bind_eq_some_iff.mp h
  exact h

theorem renameInst_of_stored {i : ℕ} (h : renameInstStored s i = some s') :
    renameInst s i = some s' := by
  unfold renameInstStored at h
  split at h
  · rename_i rId htype
    obtain ⟨value, hvalue, h⟩ := Option.bind_eq_some_iff.mp h
    obtain ⟨vm', hvm', h⟩ := Option.bind_eq_some_iff.mp h
    unfold renameInst
    rw [htype]
    exact Option.bind_eq_some_iff.mpr ⟨value, hvalue,
      Option.bind_eq_some_iff.mpr ⟨vm', pushValue_of_stored hvm', h⟩⟩
  · exact h

/-- A call within the stacks is a call. -/
theorem ssaRename_of_stored (h : ssaRenameStored doms fuel s b = some s') :
    ssaRename doms fuel s b = some s' := by
  rw [ssaRename_eq]
  unfold ssaRenameStored at h
  induction fuel generalizing s s' b with
  | zero => cases h
  | succ fuel ih =>
      unfold renameWalk at h ⊢
      obtain ⟨n, hn, h⟩ := Option.bind_eq_some_iff.mp h
      refine Option.bind_eq_some_iff.mpr ⟨n, hn, ?_⟩
      dsimp only at h ⊢
      split at h
      · rename_i hflag
        rw [if_pos hflag]
        exact h
      · rename_i hflag
        rw [if_neg hflag]
        obtain ⟨vm₁, hvm₁, h⟩ := Option.bind_eq_some_iff.mp h
        obtain ⟨s₂, hs₂, h⟩ := Option.bind_eq_some_iff.mp h
        obtain ⟨ir₃, hir₃, h⟩ := Option.bind_eq_some_iff.mp h
        obtain ⟨cs, hcs, h⟩ := Option.bind_eq_some_iff.mp h
        obtain ⟨s₄, hs₄, h⟩ := Option.bind_eq_some_iff.mp h
        exact Option.bind_eq_some_iff.mpr
          ⟨vm₁, Loop.foldlM_mono (fun _ _ _ => pushValue_of_stored) _ hvm₁,
            Option.bind_eq_some_iff.mpr
              ⟨s₂, Loop.foldlM_mono (fun _ _ _ => renameInst_of_stored) _ hs₂,
                Option.bind_eq_some_iff.mpr ⟨ir₃, hir₃, Option.bind_eq_some_iff.mpr ⟨cs, hcs,
                  Option.bind_eq_some_iff.mpr ⟨s₄, Loop.foldlM_mono (fun _ _ _ => ih) cs hs₄, h⟩⟩⟩⟩⟩

theorem ssaRenameStored_restores (h : ssaRenameStored doms fuel s b = some s') : Restores s s' :=
  ssaRename_restores doms fuel s b s' (ssaRename_of_stored h)

/-- The state in which the calls for the children start. -/
theorem pathPushes_below {n : ℕ} {s₁ : RenameState} {ir : Ir} (hn : blockNumber doms b = some n)
    (hpushes : renamePushes pushValue renameInst s n = some s₁) (htypes : SameTypes s₁.ir ir)
    {t : RenameState} (ht : Restores { s₁ with ir := ir } t) {c : ℕ} {l : List ℕ} :
    LowOn doms t c l ↔ LowOn doms s c (l ++ [b]) := by
  obtain ⟨hheight, htypes₁, hinfo⟩ := renamePushes_spec hpushes
  have hlists : SameLists s.blockInfo t.blockInfo := by
    have hlists₁ := sameLists_renamed s.blockInfo n
    rw [← hinfo] at hlists₁
    exact hlists₁.trans ht.lists
  refine forall_congr' fun a => ?_
  rw [pathPushes_congr ((htypes₁.trans htypes).trans ht.types) hlists, ht.variableMap]
  show s₁.variableMap.height _ + _ ≤ 250 ↔ _
  have hblock : blockPushes doms s (toInt a) b =
      (pushedRegs s.ir (s.blockInfo n)).countP fun a' : ℕ => toInt a' = toInt a := by
    unfold blockPushes
    rw [hn]
    rfl
  have hsplit : pathPushes doms s (toInt a) (c :: (l ++ [b])) =
      pathPushes doms s (toInt a) (c :: l) + blockPushes doms s (toInt a) b := by
    unfold pathPushes
    rw [← List.cons_append, List.map_append, List.sum_append, List.map_singleton,
      List.sum_singleton]
  rw [hheight, hsplit, hblock, Nat.add_assoc, Nat.add_comm (List.countP _ _)]

/-- A call that is about to rename a block. -/
theorem lowOn_self {n : ℕ} (hn : blockNumber doms b = some n) {s₁ : RenameState}
    (hpushes : renamePushes pushValue renameInst s n = some s₁) :
    LowOn doms s b [] ↔ s₁.variableMap.Low := by
  have hheight := (renamePushes_spec hpushes).1
  refine forall_congr' fun a => ?_
  rw [hheight]
  unfold pathPushes blockPushes
  rw [List.map_singleton, List.sum_singleton, hn]
  rfl

/-- **A call whose ways are all small** stays within the stacks. -/
theorem ssaRenameStored_of_low (fuel : ℕ) (s : RenameState) (b : ℕ) (s' : RenameState)
    (h : ssaRename doms fuel s b = some s') (hlow : s.variableMap.Low)
    (hpaths : ∀ c l, ChildPath doms b c l → LowOn doms s c l) :
    ssaRenameStored doms fuel s b = some s' := by
  rw [ssaRename_eq] at h
  unfold ssaRenameStored
  induction fuel generalizing s s' b with
  | zero => cases h
  | succ fuel ih =>
      rw [renameWalk_succ] at h ⊢
      obtain ⟨n, hn, h⟩ := Option.bind_eq_some_iff.mp h
      refine Option.bind_eq_some_iff.mpr ⟨n, hn, ?_⟩
      split at h
      · rename_i hflag
        rw [if_pos hflag]
        exact h
      · rename_i hflag
        rw [if_neg hflag]
        obtain ⟨s₁, hs₁, h⟩ := Option.bind_eq_some_iff.mp h
        obtain ⟨ir, hir, h⟩ := Option.bind_eq_some_iff.mp h
        obtain ⟨cs, hcs, h⟩ := Option.bind_eq_some_iff.mp h
        obtain ⟨s₂, hs₂, h⟩ := Option.bind_eq_some_iff.mp h
        have htypes : SameTypes s₁.ir ir :=
          sameTypes_foldlM (fun _ _ _ h => sameTypes_pushSuccessor h) _ hir
        have hlow₁ : s₁.variableMap.Low := (lowOn_self hn hs₁).mp (hpaths b [] .root)
        -- each child starts with what the block has pushed
        have hchilds : ∀ l ⊆ cs, ∀ t t', Restores { s₁ with ir := ir } t →
            l.foldlM (renameWalk pushValue renameInst doms fuel) t = some t' →
            l.foldlM (renameWalk pushValueStored renameInstStored doms fuel) t = some t' := by
          intro l
          induction l with
          | nil => exact fun _ _ _ _ ht' => ht'
          | cons c l ihl =>
              intro hl t t' ht ht'
              obtain ⟨t₁, ht₁, hrest⟩ := Option.bind_eq_some_iff.mp ht'
              have hc : c ∈ cs := hl List.mem_cons_self
              refine Option.bind_eq_some_iff.mpr ⟨t₁, ih t c t₁ ht₁ ?_ ?_, ihl
                (fun x hx => hl (List.mem_cons_of_mem _ hx)) t₁ t' (ht.trans ?_) hrest⟩
              · rw [ht.variableMap]
                exact hlow₁
              · intro x p hp
                exact (pathPushes_below hn hs₁ htypes ht).mpr (hpaths x _ (hp.above hcs hc))
              · rw [← ssaRename_eq] at ht₁
                exact ssaRename_restores doms fuel t c t₁ ht₁
        exact Option.bind_eq_some_iff.mpr
          ⟨s₁, (renamePushes_stored_iff hlow).mpr ⟨hs₁, hlow₁⟩, Option.bind_eq_some_iff.mpr
            ⟨ir, hir, Option.bind_eq_some_iff.mpr ⟨cs, hcs, Option.bind_eq_some_iff.mpr
              ⟨s₂, hchilds cs (List.Subset.refl _) _ _ (.refl _) hs₂, h⟩⟩⟩⟩

/-- **The ways to the blocks** that a call within the stacks renames are small. -/
theorem low_of_ssaRenameStored (fuel : ℕ) (s : RenameState) (b : ℕ) (s' : RenameState)
    (h : ssaRenameStored doms fuel s b = some s') (hlow : s.variableMap.Low) (n : ℕ)
    (hrenamed : (s'.blockInfo n).isRenamed = true) : (s.blockInfo n).isRenamed = true ∨
      ∃ c l, blockNumber doms c = some n ∧ ChildPath doms b c l ∧ LowOn doms s c l := by
  unfold ssaRenameStored at h
  induction fuel generalizing s s' b with
  | zero => cases h
  | succ fuel ih =>
      rw [renameWalk_succ] at h
      obtain ⟨m, hm, h⟩ := Option.bind_eq_some_iff.mp h
      split at h
      · obtain rfl := Option.some.inj h
        exact .inl hrenamed
      · obtain ⟨s₁, hs₁, h⟩ := Option.bind_eq_some_iff.mp h
        obtain ⟨ir, hir, h⟩ := Option.bind_eq_some_iff.mp h
        obtain ⟨cs, hcs, h⟩ := Option.bind_eq_some_iff.mp h
        obtain ⟨s₂, hs₂, h⟩ := Option.bind_eq_some_iff.mp h
        obtain ⟨vm', -, h⟩ := Option.bind_eq_some_iff.mp h
        obtain rfl := Option.some.inj h
        have htypes : SameTypes s₁.ir ir :=
          sameTypes_foldlM (fun _ _ _ h => sameTypes_pushSuccessor h) _ hir
        obtain ⟨hpushes, hlow₁⟩ := (renamePushes_stored_iff hlow).mp hs₁
        -- what the children rename
        have hchilds : ∀ l ⊆ cs, ∀ t t', Restores { s₁ with ir := ir } t →
            l.foldlM (renameWalk pushValueStored renameInstStored doms fuel) t = some t' →
            (t'.blockInfo n).isRenamed = true → (t.blockInfo n).isRenamed = true ∨
              ∃ c p, blockNumber doms c = some n ∧ ChildPath doms b c p ∧ LowOn doms s c p := by
          intro l
          induction l with
          | nil =>
              intro _ t t' _ ht' hn
              obtain rfl := Option.some.inj ht'
              exact .inl hn
          | cons c l ihl =>
              intro hl t t' ht ht' hn
              obtain ⟨t₁, ht₁, hrest⟩ := Option.bind_eq_some_iff.mp ht'
              have hc : c ∈ cs := hl List.mem_cons_self
              have hstored : ssaRenameStored doms fuel t c = some t₁ := ht₁
              rcases ihl (fun x hx => hl (List.mem_cons_of_mem _ hx)) t₁ t'
                (ht.trans (ssaRenameStored_restores hstored)) hrest hn with hn₁ | hpath
              · have hlow₀ : t.variableMap.Low := by
                  rw [ht.variableMap]
                  exact hlow₁
                rcases ih t c t₁ ht₁ hlow₀ hn₁ with hn₀ | ⟨x, p, hx, hp, hxp⟩
                · exact .inl hn₀
                · exact .inr ⟨x, p ++ [b], hx, hp.above hcs hc,
                    (pathPushes_below hm hpushes htypes ht).mp hxp⟩
              · exact .inr hpath
        rcases hchilds cs (List.Subset.refl _) _ _ (.refl _) hs₂ hrenamed with hn | hpath
        · have hinfo := (renamePushes_spec hpushes).2.2
          dsimp only at hn
          rw [hinfo] at hn
          by_cases hnm : n = m
          · subst hnm
            exact .inr ⟨b, [], hm, .root, (lowOn_self hm hpushes).mpr hlow₁⟩
          · rw [Function.update_of_ne hnm] at hn
            exact .inl hn
        · exact .inr hpath

end Calls

/-! ## The call up to its pops -/

/-- `renameDown` within the value stacks. -/
def renameDownStored (doms : Dominators) (fuel : ℕ) (s : RenameState) (current number : ℕ) :
    Option RenameState := do
  let s ← renamePushes pushValueStored renameInstStored s number
  let ir ← (blockSuccessors s.ir current).foldlM
    (pushSuccessor doms s.blockInfo s.variableMap current) s.ir
  (← dominatorChilds doms current).foldlM (ssaRenameStored doms fuel) { s with ir := ir }

/-- A call within the value stacks goes down and pops. -/
theorem ssaRenameStored_succ (doms : Dominators) (fuel : ℕ) (s : RenameState) (current : ℕ) :
    ssaRenameStored doms (fuel + 1) s current = (do
      let number ← blockNumber doms current
      if (s.blockInfo number).isRenamed then return s
      let s' ← renameDownStored doms fuel s current number
      let variableMap ← renamePops (s.blockInfo number) s'
      return { s' with variableMap := variableMap }) := by
  unfold ssaRenameStored
  rw [renameWalk_succ]
  simp only [renameDownStored, ssaRenameStored, bind_assoc]

theorem renameDown_of_stored {doms : Dominators} {fuel current number : ℕ} {s s' : RenameState}
    (h : renameDownStored doms fuel s current number = some s') :
    renameDown doms fuel s current number = some s' := by
  obtain ⟨s₁, hs₁, h⟩ := Option.bind_eq_some_iff.mp h
  obtain ⟨vm₁, hvm₁, hs₁⟩ := Option.bind_eq_some_iff.mp hs₁
  obtain ⟨ir₂, hir₂, h⟩ := Option.bind_eq_some_iff.mp h
  obtain ⟨cs, hcs, h⟩ := Option.bind_eq_some_iff.mp h
  exact Option.bind_eq_some_iff.mpr
    ⟨vm₁, Loop.foldlM_mono (fun _ _ _ => pushValue_of_stored) _ hvm₁,
      Option.bind_eq_some_iff.mpr
        ⟨s₁, Loop.foldlM_mono (fun _ _ _ => renameInst_of_stored) _ hs₁,
          Option.bind_eq_some_iff.mpr ⟨ir₂, hir₂, Option.bind_eq_some_iff.mpr
            ⟨cs, hcs, Loop.foldlM_mono (fun _ _ _ => ssaRename_of_stored) cs h⟩⟩⟩⟩
