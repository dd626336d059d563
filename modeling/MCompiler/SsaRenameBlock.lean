/-
# Renaming the instructions of one block

`BlockProgress pre` : the instructions `pre` at the start of a block have been renamed, on top
of the blocks `W` that were renamed before.  Loads get the value that the stacks hold,
assigns push theirs, and everything else is passed over (`BlockProgress.load`,
`BlockProgress.assign`, `BlockProgress.other`); `renameInsts_spec` is the loop.
-/
import MCompiler.SsaFunction

open FlowGraph

/-! ## Registers along a list of instructions -/

section Env

variable {ir : Ir} {value value' : ℕ → Value} {env : Env}

theorem blockEnv_append (l l' : List ℕ) :
    blockEnv ir value env (l ++ l') = blockEnv ir value (blockEnv ir value env l) l' :=
  List.foldl_append

theorem blockEnv_concat (l : List ℕ) (i : ℕ) :
    blockEnv ir value env (l ++ [i]) = instEnv ir value (blockEnv ir value env l) i :=
  blockEnv_append l [i]

theorem instEnv_assign {i a : ℕ} {v : Value} (htype : (ir.insts i).type = .assignVar a)
    (hop : ir.operand ⟨i, 0⟩ = some v) :
    instEnv ir value env i = Function.update env a (some (sub value v)) := by
  unfold instEnv
  rw [htype]
  dsimp only
  rw [hop]
  rfl

theorem instEnv_other {i : ℕ} (htype : ∀ a, (ir.insts i).type ≠ .assignVar a) :
    instEnv ir value env i = env := by
  unfold instEnv
  split
  · rename_i a h
    exact absurd h (htype a)
  · rfl

/-- Only the values of the operands of assigns matter. -/
theorem blockEnv_congr {l : List ℕ}
    (h : ∀ i ∈ l, ∀ v, ir.operand ⟨i, 0⟩ = some v → (∃ a, (ir.insts i).type = .assignVar a) →
      sub value v = sub value' v) : blockEnv ir value env l = blockEnv ir value' env l := by
  induction l generalizing env with
  | nil => rfl
  | cons i l ih =>
      have hi : instEnv ir value env i = instEnv ir value' env i := by
        unfold instEnv
        split
        · rename_i a htype
          cases hop : ir.operand ⟨i, 0⟩ with
          | none => rfl
          | some v => simp only [Option.map_some, h i List.mem_cons_self v hop ⟨a, htype⟩]
        · rfl
      show blockEnv ir value (instEnv ir value env i) l =
        blockEnv ir value' (instEnv ir value' env i) l
      rw [hi]
      exact ih fun j hj => h j (List.mem_cons_of_mem _ hj)

/-- A register has a value after a list of instructions if it had one, or was assigned. -/
theorem blockEnv_ne_none {l : List ℕ} {a : ℕ} (hop : ∀ i ∈ l, ∀ a,
      (ir.insts i).type = .assignVar a → ∃ v, ir.operand ⟨i, 0⟩ = some v) :
    blockEnv ir value env l a ≠ none ↔
      env a ≠ none ∨ ∃ i ∈ l, (ir.insts i).type = .assignVar a := by
  induction l generalizing env with
  | nil => simp [blockEnv]
  | cons i l ih =>
      show blockEnv ir value (instEnv ir value env i) l a ≠ none ↔ _
      rw [ih fun j hj => hop j (List.mem_cons_of_mem _ hj), List.exists_mem_cons_iff, ← or_assoc]
      refine or_congr ?_ Iff.rfl
      by_cases htype : ∃ a', (ir.insts i).type = .assignVar a'
      · obtain ⟨a', htype⟩ := htype
        obtain ⟨v, hv⟩ := hop i List.mem_cons_self a' htype
        rw [instEnv_assign htype hv, htype]
        by_cases ha : a = a'
        · subst ha
          simp
        · rw [Function.update_of_ne ha]
          simp [Ne.symm ha]
      · rw [instEnv_other fun a' ha' => htype ⟨a', ha'⟩]
        exact ⟨.inl, fun h => h.elim id fun ha => absurd ⟨a, ha⟩ htype⟩

end Env

/-- The registers that a list of instructions assigns, in order. -/
def assignRegs (ir : Ir) (l : List ℕ) : List ℕ :=
  l.filterMap fun i =>
    match (ir.insts i).type with
    | .assignVar a => some a
    | _ => none

theorem assignRegs_append (ir : Ir) (l l' : List ℕ) :
    assignRegs ir (l ++ l') = assignRegs ir l ++ assignRegs ir l' := List.filterMap_append

theorem loadAssigns_append (ir : Ir) (l l' : List ℕ) :
    loadAssigns ir (l ++ l') = loadAssigns ir l ++ loadAssigns ir l' := List.filter_append _ _

theorem mem_loadAssigns {ir : Ir} {l : List ℕ} {i : ℕ} :
    i ∈ loadAssigns ir l ↔ i ∈ l ∧ (ir.insts i).type.isLoadAssign = true := List.mem_filter

theorem isLoadAssign_iff {type : InstType} :
    type.isLoadAssign = true ↔ (∃ a, type = .loadVar a) ∨ ∃ a, type = .assignVar a := by
  cases type <;> simp [InstType.isLoadAssign]

/-- What stands at two positions of a list without repetitions. -/
theorem ne_of_positions {l : List ℕ} (hl : l.Nodup) {m n b c : ℕ} (hm : l[m]? = some c)
    (hn : l[n]? = some b) (hmn : m ≠ n) : c ≠ b := by
  rintro rfl
  exact hmn ((List.getElem?_inj (List.getElem?_eq_some_iff.mp hm).1 hl).mp (hm.trans hn.symm))

/-- The instruction before a position of a list without repetitions. -/
theorem split_unique {l pre post pre' post' : List ℕ} {i : ℕ} (hl : l.Nodup)
    (h : l = pre ++ i :: post) (h' : l = pre' ++ i :: post') : pre = pre' ∧ post = post' := by
  have hnodup := hl
  rw [h] at hnodup
  have hmid := List.nodup_middle.mp hnodup
  have hnot := (List.nodup_cons.mp hmid).1
  have hnodup' := hl
  rw [h'] at hnodup'
  have hnot' := (List.nodup_cons.mp (List.nodup_middle.mp hnodup')).1
  rw [List.mem_append, not_or] at hnot hnot'
  obtain ⟨hpre, -, hpost⟩ := (List.append_cons_inj_of_notMem hnot'.1 hnot'.2).mp
    (h'.symm.trans h)
  exact ⟨hpre.symm, hpost.symm⟩

/-- A position in a list with one more element. -/
theorem split_concat {l p q : List ℕ} {i j : ℕ} (h : l ++ [i] = p ++ j :: q) :
    (q = [] ∧ p = l ∧ j = i) ∨ ∃ q', l = p ++ j :: q' := by
  rcases List.eq_nil_or_concat q with rfl | ⟨q', x, rfl⟩
  · obtain ⟨hl, hji⟩ := List.append_inj' h rfl
    exact .inl ⟨rfl, hl.symm, (List.singleton_inj.mp hji).symm⟩
  · have h' : l ++ [i] = (p ++ j :: q') ++ [x] := by
      rw [h, List.concat_eq_append, List.append_assoc]
      rfl
    exact .inr ⟨q', (List.append_inj' h' rfl).1⟩

/-! ## Where operands come from -/

/-- The block `b` is next: its strict dominators have been renamed, and it has not. -/
structure BlockContext (ir : Ir) (entry : ℕ) (phis : ℕ → List PhiInfo) (doms : Dominators)
    (W : ℕ → Prop) (r : Renaming) (done : List ℕ) (pushed : List PhiOperand) (b : ℕ) : Prop where
  input : RenameForm ir entry phis doms
  renamed : ∃ ir', Renamed ir entry phis W r done pushed ir'
  inside : ∀ c, W c → Reachable (cfgEdge ir) entry c
  closed : ∀ c, W c → ∀ x, Dominates (cfgEdge ir) entry x c → W x
  reach : Reachable (cfgEdge ir) entry b
  fresh : ¬ W b
  above : ∀ x, StrictlyDominates (cfgEdge ir) entry x b → W x

section Context

variable {ir : Ir} {entry : ℕ} {phis : ℕ → List PhiInfo} {doms : Dominators} {W : ℕ → Prop}
  {r : Renaming} {done : List ℕ} {pushed : List PhiOperand} {b : ℕ}

/-- Only loads and assigns are removed. -/
theorem Renamed.isLoadAssign_of_done {ir' : Ir} {i : ℕ}
    (h : Renamed ir entry phis W r done pushed ir') (hi : i ∈ done) :
    (ir.insts i).type.isLoadAssign = true := by
  obtain ⟨c, -, hic⟩ := (h.mem_done i).mp hi
  exact (mem_loadAssigns.mp hic).2

/-- So are those that the walk has come past. -/
theorem BlockContext.isLoadAssign (h : BlockContext ir entry phis doms W r done pushed b)
    {l : List ℕ} {i : ℕ} (hi : i ∈ done ++ loadAssigns ir l) :
    (ir.insts i).type.isLoadAssign = true := by
  obtain ⟨ir', hren⟩ := h.renamed
  rcases List.mem_append.mp hi with hi | hi
  · exact hren.isLoadAssign_of_done hi
  · exact (mem_loadAssigns.mp hi).2

/-- An instruction is in one block. -/
theorem HeapOk.block_unique (h : HeapOk ir) {i c c' : ℕ} (hc : i ∈ ir.blocks c)
    (hc' : i ∈ ir.blocks c') : c = c' := (h.parent c i hc).symm.trans (h.parent c' i hc')

/-- The operand of an assign. -/
theorem RenameForm.assign_operand (h : RenameForm ir entry phis doms)
    (hb : Reachable (cfgEdge ir) entry b) {i a : ℕ} (hi : i ∈ ir.blocks b)
    (htype : (ir.insts i).type = .assignVar a) :
    ∃ v, ir.operand ⟨i, 0⟩ = some v ∧ OperandOk ir entry b i v := by
  obtain ⟨v, hv⟩ := h.form.assign b hb i hi a htype
  have hop : ir.operand ⟨i, 0⟩ = some v := by
    unfold Ir.operand
    dsimp only
    rw [hv]
    rfl
  refine ⟨v, hop, h.form.operand b hb i hi ?_ 0 v hop⟩
  rw [htype]
  exact InstType.noConfusion

/-- A result is no operand of an earlier instruction of its block. -/
theorem RenameForm.operand_ne_later (h : RenameForm ir entry phis doms)
    (hb : Reachable (cfgEdge ir) entry b) {pre post : List ℕ} {i j : ℕ}
    (hblock : ir.blocks b = pre ++ i :: post) (hj : j ∈ pre) (htype : (ir.insts j).type ≠ .phi)
    (k : ℕ) : ir.operand ⟨j, k⟩ ≠ some (.inst i) := by
  intro hop
  have hjb : j ∈ ir.blocks b := by
    rw [hblock]
    exact List.mem_append_left _ hj
  have hib : i ∈ ir.blocks b := mem_of_split hblock
  cases h.form.operand b hb j hjb htype k _ hop with
  | inst _ hdef =>
      rcases hdef with ⟨p, q, hsplit, hip⟩ | ⟨x, hx, hix⟩
      · obtain ⟨p', q', rfl⟩ := List.append_of_mem hj
        have hsplit' : ir.blocks b = p' ++ j :: (q' ++ i :: post) := by
          rw [hblock, List.append_assoc]
          rfl
        obtain ⟨rfl, -⟩ := split_unique (h.heap.nodup b) hsplit hsplit'
        have hnodup := h.heap.nodup b
        rw [hblock] at hnodup
        exact (List.nodup_cons.mp (List.nodup_middle.mp hnodup)).1
          (List.mem_append_left _ (List.mem_append_left _ hip))
      · exact hx.1 (h.heap.block_unique hix hib)

/-- A result of `b` is no operand in a block that was renamed before. -/
theorem BlockContext.operand_ne_before (h : BlockContext ir entry phis doms W r done pushed b)
    {c i j : ℕ} (hc : W c) (hj : j ∈ ir.blocks c) (hi : i ∈ ir.blocks b)
    (htype : (ir.insts j).type ≠ .phi) (k : ℕ) : ir.operand ⟨j, k⟩ ≠ some (.inst i) := by
  intro hop
  cases h.input.form.operand c (h.inside c hc) j hj htype k _ hop with
  | inst _ hdef =>
      rcases hdef with ⟨p, q, hsplit, hip⟩ | ⟨x, hx, hix⟩
      · have hic : i ∈ ir.blocks c := by
          rw [hsplit]
          exact List.mem_append_left _ hip
        exact h.fresh (h.input.heap.block_unique hic hi ▸ hc)
      · have hxb := h.input.heap.block_unique hix hi
        subst hxb
        exact h.fresh (h.closed c hc x hx.2)

/-- The instruction that is next has not been removed. -/
theorem BlockContext.not_done (h : BlockContext ir entry phis doms W r done pushed b)
    {pre post : List ℕ} {i : ℕ} (hblock : ir.blocks b = pre ++ i :: post) :
    i ∉ done ++ loadAssigns ir pre := by
  have hib : i ∈ ir.blocks b := mem_of_split hblock
  obtain ⟨ir', hren⟩ := h.renamed
  rw [List.mem_append, not_or]
  constructor
  · intro hi
    obtain ⟨c, hc, hic⟩ := (hren.mem_done i).mp hi
    exact h.fresh (h.input.heap.block_unique (mem_loadAssigns.mp hic).1 hib ▸ hc)
  · intro hi
    have hnodup := h.input.heap.nodup b
    rw [hblock] at hnodup
    exact (List.nodup_cons.mp (List.nodup_middle.mp hnodup)).1
      (List.mem_append_left _ (mem_loadAssigns.mp hi).1)

/-- Phis alone have operands pushed. -/
theorem BlockContext.phiUses_eq_nil (h : BlockContext ir entry phis doms W r done pushed b)
    {j : ℕ} (hj : (ir.insts j).type ≠ .phi) : phiUses pushed j = [] := by
  rw [phiUses, List.flatMap_eq_nil_iff]
  intro e he
  rw [if_neg]
  rintro rfl
  obtain ⟨ir', hren⟩ := h.renamed
  obtain ⟨hW, x, hx, p, hpx, hphi, -⟩ := (hren.mem_pushed e).mp he
  have hreach : Reachable (cfgEdge ir) entry x := (h.inside _ hW).step hx
  exact hj (hphi ▸ (h.input.phi x hreach p hpx).2.2.1)

end Context

/-! ## Progress within a block -/

/-- The instructions `pre` at the start of `b` have been renamed; `env` are the registers
after the phis of `b`, and `vm` the stacks before them. -/
structure BlockProgress (ir : Ir) (phis : ℕ → List PhiInfo) (r : Renaming) (done : List ℕ)
    (pushed : List PhiOperand) (b : ℕ) (env : Env) (vm : VariableMap) (pre : List ℕ)
    (value : ℕ → Value) (s : RenameState) : Prop where
  rewritten : Rewritten ir (done ++ loadAssigns ir pre) value pushed s.ir
  kept : ∀ i, (i ∉ done ++ loadAssigns ir pre ∨ ∃ a, (ir.insts i).type = .assignVar a) →
    value i = .inst i
  settled : ∀ i ∈ done ++ loadAssigns ir pre, ∀ a, (ir.insts i).type = .loadVar a →
    Settled ir (value i)
  old : ∀ i ∈ done, value i = r.value i
  pushes : ∃ l, s.variableMap = vm.pushAll l ∧
    l.map Prod.fst = (phis b).map PhiInfo.rId ++ assignRegs ir pre
  tops : s.variableMap.tops = blockEnv ir value env pre
  envSettled : ∀ a v, blockEnv ir value env pre a = some v → Settled ir v
  load : ∀ p i q a, pre = p ++ i :: q → (ir.insts i).type = .loadVar a →
    blockEnv ir value env p a = some (value i)

section Progress

variable {ir : Ir} {entry : ℕ} {phis : ℕ → List PhiInfo} {doms : Dominators} {W : ℕ → Prop}
  {r : Renaming} {done : List ℕ} {pushed : List PhiOperand} {b : ℕ} {env : Env}
  {vm : VariableMap} {pre post : List ℕ} {value : ℕ → Value} {s : RenameState} {i : ℕ}
  (h : BlockContext ir entry phis doms W r done pushed b)
  (hp : BlockProgress ir phis r done pushed b env vm pre value s)
  (hblock : ir.blocks b = pre ++ i :: post)
include hp

/-- Only the loads that the walk has come past are replaced. -/
theorem BlockProgress.kept_of_not_load (h : BlockContext ir entry phis doms W r done pushed b)
    {j : ℕ} (hload : ¬ (j ∈ done ++ loadAssigns ir pre ∧ ∃ a, (ir.insts j).type = .loadVar a)) :
    value j = .inst j := by
  apply hp.kept
  by_cases hmem : j ∈ done ++ loadAssigns ir pre
  · rcases isLoadAssign_iff.mp (h.isLoadAssign hmem) with hl | ha
    · exact absurd ⟨hmem, hl⟩ hload
    · exact .inr ha
  · exact .inl hmem

/-- An instruction that is no load and no assign. -/
theorem BlockProgress.other (htype : (ir.insts i).type.isLoadAssign = false) :
    BlockProgress ir phis r done pushed b env vm (pre ++ [i]) value s := by
  have hla : loadAssigns ir (pre ++ [i]) = loadAssigns ir pre := by
    rw [loadAssigns_append]
    simp [loadAssigns, htype]
  have hregs : assignRegs ir (pre ++ [i]) = assignRegs ir pre := by
    rw [assignRegs_append]
    cases ht : (ir.insts i).type <;> simp_all [assignRegs, InstType.isLoadAssign]
  have hno : ∀ a, (ir.insts i).type ≠ .assignVar a := by
    intro a ha
    rw [ha] at htype
    cases htype
  have henv : blockEnv ir value env (pre ++ [i]) = blockEnv ir value env pre := by
    rw [blockEnv_concat, instEnv_other hno]
  refine ⟨?_, ?_, ?_, hp.old, ?_, ?_, ?_, ?_⟩
  · rw [hla]
    exact hp.rewritten
  · rw [hla]
    exact hp.kept
  · rw [hla]
    exact hp.settled
  · rw [hregs]
    exact hp.pushes
  · rw [henv]
    exact hp.tops
  · rw [henv]
    exact hp.envSettled
  · intro p j q a hsplit hload
    rcases split_concat hsplit with ⟨-, -, rfl⟩ | ⟨q', hpre⟩
    · rw [hload] at htype
      cases htype
    · exact hp.load p j q' a hpre hload

include h hblock

/-- What an assign pushes stays. -/
theorem BlockProgress.operand_settled {v : Value} (htype : ∃ a, (ir.insts i).type = .assignVar a)
    (hop : OperandOk ir entry b i v) : Settled ir (sub value v) := by
  obtain ⟨a, htype⟩ := htype
  cases hop with
  | const c => trivial
  | block x hjump =>
      rw [htype] at hjump
      cases hjump
  | @inst j hresult hdef =>
      show Settled ir (value j)
      by_cases hload : ∃ a', (ir.insts j).type = .loadVar a'
      · obtain ⟨a', hload⟩ := hload
        have hla : (ir.insts j).type.isLoadAssign = true := by
          rw [hload]
          rfl
        refine hp.settled j ?_ a' hload
        rcases hdef with ⟨p, q, hsplit, hjp⟩ | ⟨x, hx, hjx⟩
        · obtain ⟨rfl, -⟩ := split_unique (h.input.heap.nodup b) hsplit hblock
          exact List.mem_append_right _ (mem_loadAssigns.mpr ⟨hjp, hla⟩)
        · obtain ⟨ir', hren⟩ := h.renamed
          exact List.mem_append_left _ ((hren.mem_done j).mpr
            ⟨x, h.above x hx, mem_loadAssigns.mpr ⟨hjx, hla⟩⟩)
      · have hla : (ir.insts j).type.isLoadAssign = false := by
          cases htj : (ir.insts j).type with
          | loadVar a' => exact absurd ⟨a', htj⟩ hload
          | assignVar a' =>
              rw [htj] at hresult
              cases hresult
          | _ => rfl
        have hkept : value j = .inst j := by
          refine hp.kept j (.inl fun hmem => ?_)
          have hj := h.isLoadAssign hmem
          rw [hla] at hj
          cases hj
        rw [hkept]
        exact hla

/-- **An assign** pushes its operand and goes. -/
theorem BlockProgress.assign {a : ℕ} (htype : (ir.insts i).type = .assignVar a) (hhas : vm.Has a) :
    ∃ s', renameInst s i = some s' ∧ s'.blockInfo = s.blockInfo ∧
      BlockProgress ir phis r done pushed b env vm (pre ++ [i]) value s' := by
  have hib : i ∈ ir.blocks b := mem_of_split hblock
  obtain ⟨v, hop, hok⟩ := h.input.assign_operand h.reach hib htype
  have hnophi : (ir.insts i).type ≠ .phi := by
    rw [htype]
    exact InstType.noConfusion
  have hop' : s.ir.operand ⟨i, 0⟩ = some (sub value v) := by
    rw [hp.rewritten.operand (h.phiUses_eq_nil hnophi), hop]
    rfl
  obtain ⟨l, hvm, hl⟩ := hp.pushes
  have hreg : IntReg a := h.input.form.reg b h.reach i hib a (by rw [htype]; rfl)
  have hpush : pushValue s.variableMap a (sub value v) =
      some (vm.pushAll (l ++ [(a, sub value v)])) := by
    rw [hvm]
    exact pushValue_pushAll hhas
  have hla : loadAssigns ir (pre ++ [i]) = loadAssigns ir pre ++ [i] := by
    rw [loadAssigns_append]
    simp [loadAssigns, htype, InstType.isLoadAssign]
  have henv : blockEnv ir value env (pre ++ [i]) =
      Function.update (blockEnv ir value env pre) a (some (sub value v)) := by
    rw [blockEnv_concat, instEnv_assign htype hop]
  refine ⟨⟨instRemove s.ir i, s.blockInfo, vm.pushAll (l ++ [(a, sub value v)])⟩, ?_, rfl, ?_⟩
  · unfold renameInst
    rw [hp.rewritten.type, htype]
    dsimp only
    rw [hop', Option.bind_eq_bind, Option.bind_some, hpush]
    rfl
  · refine ⟨?_, fun j hj => hp.kept j ?_, fun j hj a' hload => hp.settled j ?_ a' hload, hp.old,
      ⟨_, rfl, ?_⟩, ?_, fun a' w hw => ?_, fun p j q a' hsplit hload => ?_⟩
    · rw [hla, ← List.append_assoc]
      exact hp.rewritten.remove h.input.heap hib
    · rw [hla] at hj
      exact hj.imp_left fun hj hmem => hj (by
        rw [← List.append_assoc]
        exact List.mem_append_left _ hmem)
    · rw [hla, ← List.append_assoc] at hj
      rcases List.mem_append.mp hj with hj | hj
      · exact hj
      · rw [List.mem_singleton.mp hj, htype] at hload
        cases hload
    · rw [List.map_append, hl, assignRegs_append, List.append_assoc]
      simp [assignRegs, htype]
    · rw [henv, tops_pushAll_append hhas hreg, ← hvm, hp.tops]
    · rw [henv] at hw
      by_cases ha : a' = a
      · subst ha
        rw [Function.update_self] at hw
        obtain rfl := Option.some.inj hw
        exact hp.operand_settled h hblock ⟨a', htype⟩ hok
      · rw [Function.update_of_ne ha] at hw
        exact hp.envSettled a' w hw
    · rcases split_concat hsplit with ⟨-, -, rfl⟩ | ⟨q', hpre⟩
      · rw [htype] at hload
        cases hload
      · exact hp.load p j q' a' hpre hload

/-- **A load** is replaced by the value of its register, and goes. -/
theorem BlockProgress.load_step {a : ℕ} {v : Value} (htype : (ir.insts i).type = .loadVar a)
    (hv : blockEnv ir value env pre a = some v) :
    ∃ s', renameInst s i = some s' ∧ s'.blockInfo = s.blockInfo ∧
      BlockProgress ir phis r done pushed b env vm (pre ++ [i]) (Function.update value i v) s' := by
  have hib : i ∈ ir.blocks b := mem_of_split hblock
  have hreg : IntReg a := h.input.form.reg b h.reach i hib a (by rw [htype]; rfl)
  have hnot := h.not_done hblock
  have hlast : getLastValue s.variableMap a = some v := by
    have htop : s.variableMap.tops a = some v := by rw [hp.tops, hv]
    unfold VariableMap.tops at htop
    rwa [if_pos hreg] at htop
  have hla : loadAssigns ir (pre ++ [i]) = loadAssigns ir pre ++ [i] := by
    rw [loadAssigns_append]
    simp [loadAssigns, htype, InstType.isLoadAssign]
  have hsettled : ∀ w, Settled ir w → w ≠ .inst i := by
    rintro w hw rfl
    have hw : (ir.insts i).type.isLoadAssign = false := hw
    rw [htype] at hw
    cases hw
  have hvalue : ∀ j, value j = .inst i ↔ j = i := by
    intro j
    constructor
    · intro hj
      by_cases hload : j ∈ done ++ loadAssigns ir pre ∧ ∃ a, (ir.insts j).type = .loadVar a
      · obtain ⟨hmem, a', hload⟩ := hload
        exact absurd hj (hsettled _ (hp.settled j hmem a' hload))
      · rw [hp.kept_of_not_load h hload] at hj
        exact Value.inst.inj hj
    · rintro rfl
      exact hp.kept j (.inl hnot)
  have hpushed : ∀ e ∈ pushed, e.value ≠ .inst i := by
    intro e he
    obtain ⟨ir', hren⟩ := h.renamed
    obtain ⟨hW, x, -, p, -, -, hout⟩ := (hren.mem_pushed e).mp he
    exact hsettled _ (hren.env _ hW _ _ hout)
  -- the value of a load does not matter to the assigns before it
  have hbefore : ∀ l l', pre = l ++ l' → blockEnv ir (Function.update value i v) env l =
      blockEnv ir value env l := by
    intro l l' hl
    refine blockEnv_congr fun j hj w hop ⟨a', hassign⟩ => ?_
    have hjpre : j ∈ pre := by
      rw [hl]
      exact List.mem_append_left _ hj
    have hne : w ≠ .inst i := by
      rintro rfl
      refine h.input.operand_ne_later h.reach hblock hjpre ?_ 0 hop
      rw [hassign]
      exact InstType.noConfusion
    cases w with
    | inst k =>
        have hki : k ≠ i := fun hki => hne (hki ▸ rfl)
        show Function.update value i v k = value k
        rw [Function.update_of_ne hki]
    | const c => rfl
    | block x => rfl
  have henv : blockEnv ir (Function.update value i v) env (pre ++ [i]) =
      blockEnv ir value env pre := by
    rw [blockEnv_concat, instEnv_other fun a' ha' => by
      rw [htype] at ha'
      cases ha']
    exact hbefore pre [] (List.append_nil _).symm
  obtain ⟨l, hvm, hl⟩ := hp.pushes
  refine ⟨⟨instRemove (valueReplaceAllUses s.ir (.inst i) v) i, s.blockInfo, s.variableMap⟩,
    ?_, rfl, ?_⟩
  · unfold renameInst
    rw [hp.rewritten.type, htype]
    dsimp only
    rw [hlast]
    rfl
  · refine ⟨?_, fun j hj => ?_, fun j hj a' hload => ?_, fun j hj => ?_, ⟨l, hvm, ?_⟩, ?_,
      fun a' w hw => ?_, fun p j q a' hsplit hload => ?_⟩
    · rw [hla, ← List.append_assoc]
      exact (hp.rewritten.replace hvalue hpushed
        (hsettled v (hp.envSettled a v hv))).remove h.input.heap hib
    · rw [hla, ← List.append_assoc] at hj
      have hne : j ≠ i := by
        rintro rfl
        rcases hj with hj | ⟨a', ha'⟩
        · exact hj (List.mem_append_right _ List.mem_cons_self)
        · rw [htype] at ha'
          cases ha'
      rw [Function.update_of_ne hne]
      exact hp.kept j (hj.imp_left fun hj hmem => hj (List.mem_append_left _ hmem))
    · rw [hla, ← List.append_assoc] at hj
      by_cases hji : j = i
      · rw [hji, Function.update_self]
        exact hp.envSettled a v hv
      · rw [Function.update_of_ne hji]
        rcases List.mem_append.mp hj with hj | hj
        · exact hp.settled j hj a' hload
        · exact absurd (List.mem_singleton.mp hj) hji
    · have hne : j ≠ i := by
        rintro rfl
        exact hnot (List.mem_append_left _ hj)
      rw [Function.update_of_ne hne]
      exact hp.old j hj
    · rw [hl, assignRegs_append]
      simp [assignRegs, htype]
    · rw [henv]
      exact hp.tops
    · rw [henv] at hw
      exact hp.envSettled a' w hw
    · rcases split_concat hsplit with ⟨-, rfl, rfl⟩ | ⟨q', hpre⟩
      · rw [htype] at hload
        cases hload
        rw [Function.update_self, hbefore p [] (List.append_nil _).symm, hv]
      · have hji : j ≠ i := by
          rintro rfl
          have hnodup := h.input.heap.nodup b
          rw [hblock, hpre] at hnodup
          exact (List.nodup_cons.mp (List.nodup_middle.mp hnodup)).1
            (List.mem_append_left _ (List.mem_append_right _ List.mem_cons_self))
        rw [Function.update_of_ne hji, hbefore p _ hpre]
        exact hp.load p j q' a' hpre hload

omit hblock in
/-- A load of a register without a value fails. -/
theorem BlockProgress.renameInst_load_eq_none {a : ℕ} (hi : i ∈ ir.blocks b)
    (htype : (ir.insts i).type = .loadVar a) (hv : blockEnv ir value env pre a = none) :
    renameInst s i = none := by
  have hreg : IntReg a := h.input.form.reg b h.reach i hi a (by rw [htype]; rfl)
  have hlast : getLastValue s.variableMap a = none := by
    have htop : s.variableMap.tops a = none := by rw [hp.tops, hv]
    unfold VariableMap.tops at htop
    rwa [if_pos hreg] at htop
  unfold renameInst
  rw [hp.rewritten.type, htype]
  dsimp only
  rw [hlast]
  rfl

end Progress

/-! ## The whole block -/

section Block

variable {ir : Ir} {entry : ℕ} {phis : ℕ → List PhiInfo} {doms : Dominators} {W : ℕ → Prop}
  {r : Renaming} {done : List ℕ} {pushed : List PhiOperand} {b : ℕ} {env : Env}
  {vm : VariableMap}

/-- A load of the block `b` finds no value: its register has none in `env`, and no assign
before. -/
def LoadFails (ir : Ir) (b : ℕ) (env : Env) : Prop :=
  ∃ pre i post a, ir.blocks b = pre ++ i :: post ∧ (ir.insts i).type = .loadVar a ∧
    ¬ (env a ≠ none ∨ ∃ j ∈ pre, (ir.insts j).type = .assignVar a)

/-- **The loop over the loads and assigns** of a block ends, unless a load finds no value. -/
theorem renameInsts_spec (h : BlockContext ir entry phis doms W r done pushed b)
    (hhas : ∀ i ∈ ir.blocks b, ∀ a, (ir.insts i).type = .assignVar a → vm.Has a)
    {pre post : List ℕ} {value : ℕ → Value} {s : RenameState}
    (hblock : ir.blocks b = pre ++ post)
    (hp : BlockProgress ir phis r done pushed b env vm pre value s) :
    (∃ value' s', (loadAssigns ir post).foldlM renameInst s = some s' ∧
      s'.blockInfo = s.blockInfo ∧
      BlockProgress ir phis r done pushed b env vm (ir.blocks b) value' s') ∨
    ((loadAssigns ir post).foldlM renameInst s = none ∧ LoadFails ir b env) := by
  induction post generalizing pre value s with
  | nil =>
      rw [List.append_nil] at hblock
      rw [hblock]
      exact .inl ⟨value, s, rfl, rfl, hp⟩
  | cons i post ih =>
      have hnext : ir.blocks b = (pre ++ [i]) ++ post := by
        rw [hblock, List.append_assoc]
        rfl
      -- after the instruction `i`, the rest of the loop
      have hrest : ∀ value₁ s₁, renameInst s i = some s₁ → s₁.blockInfo = s.blockInfo →
          BlockProgress ir phis r done pushed b env vm (pre ++ [i]) value₁ s₁ →
          (∃ value' s', (i :: loadAssigns ir post).foldlM renameInst s = some s' ∧
            s'.blockInfo = s.blockInfo ∧
            BlockProgress ir phis r done pushed b env vm (ir.blocks b) value' s') ∨
          ((i :: loadAssigns ir post).foldlM renameInst s = none ∧ LoadFails ir b env) := by
        intro value₁ s₁ hrun hinfo hp₁
        rw [List.foldlM_cons, hrun]
        refine (ih hnext hp₁).imp_left fun ⟨value', s', hrun', hinfo', hp'⟩ => ?_
        exact ⟨value', s', hrun', hinfo'.trans hinfo, hp'⟩
      by_cases hla : (ir.insts i).type.isLoadAssign = true
      · have hcons : loadAssigns ir (i :: post) = i :: loadAssigns ir post :=
          List.filter_cons_of_pos hla
        rw [hcons]
        have hib : i ∈ ir.blocks b := mem_of_split hblock
        rcases isLoadAssign_iff.mp hla with ⟨a, htype⟩ | ⟨a, htype⟩
        · cases hv : blockEnv ir value env pre a with
          | some v =>
              obtain ⟨s₁, hrun, hinfo, hp₁⟩ := hp.load_step h hblock htype hv
              exact hrest _ s₁ hrun hinfo hp₁
          | none =>
              have hops : ∀ j ∈ pre, ∀ a', (ir.insts j).type = .assignVar a' →
                  ∃ v, ir.operand ⟨j, 0⟩ = some v := by
                intro j hj a' hj'
                have hjb : j ∈ ir.blocks b := by
                  rw [hblock]
                  exact List.mem_append_left _ hj
                obtain ⟨v, hv, -⟩ := h.input.assign_operand h.reach hjb hj'
                exact ⟨v, hv⟩
              refine .inr ⟨?_, pre, i, post, a, hblock, htype, fun hsome =>
                (blockEnv_ne_none hops).mpr hsome hv⟩
              rw [List.foldlM_cons, hp.renameInst_load_eq_none h hib htype hv]
              rfl
        · obtain ⟨s₁, hrun, hinfo, hp₁⟩ := hp.assign h hblock htype (hhas i hib a htype)
          exact hrest _ s₁ hrun hinfo hp₁
      · have hcons : loadAssigns ir (i :: post) = loadAssigns ir post :=
          List.filter_cons_of_neg hla
        rw [hcons]
        exact ih hnext (hp.other (Bool.eq_false_iff.mpr hla))

/-- **The loop over the phis**: their results are pushed. -/
theorem pushPhis_spec (l : List PhiInfo) (hhas : ∀ p ∈ l, vm.Has p.rId ∧ IntReg p.rId)
    (pushes : List (ℕ × Value)) :
    l.foldlM (fun vm phi => pushValue vm phi.rId (.inst phi.phiInst)) (vm.pushAll pushes) =
        some (vm.pushAll (pushes ++ l.map fun p => (p.rId, .inst p.phiInst))) ∧
      (vm.pushAll (pushes ++ l.map fun p => (p.rId, .inst p.phiInst))).tops =
        phiEnv l (vm.pushAll pushes).tops := by
  induction l generalizing pushes with
  | nil =>
      rw [List.map_nil, List.append_nil]
      exact ⟨rfl, rfl⟩
  | cons p l ih =>
      obtain ⟨hp, hreg⟩ := hhas p List.mem_cons_self
      obtain ⟨hrun, htops⟩ := ih (fun q hq => hhas q (List.mem_cons_of_mem _ hq))
        (pushes ++ [(p.rId, .inst p.phiInst)])
      rw [List.append_assoc] at hrun htops
      constructor
      · rw [List.foldlM_cons, pushValue_pushAll hp]
        exact hrun
      · rw [tops_pushAll_append hp hreg] at htops
        exact htops

theorem phiEnv_append (l l' : List PhiInfo) (env : Env) :
    phiEnv (l ++ l') env = phiEnv l' (phiEnv l env) := List.foldl_append

/-- The registers that no phi is for keep their value, the others have the result of one. -/
theorem phiEnv_cases (l : List PhiInfo) (env : Env) (a : ℕ) :
    (phiEnv l env a = env a ∧ ∀ p ∈ l, p.rId ≠ a) ∨
      ∃ p ∈ l, p.rId = a ∧ phiEnv l env a = some (.inst p.phiInst) := by
  induction l using List.reverseRecOn with
  | nil => exact .inl ⟨rfl, fun p hp => absurd hp List.not_mem_nil⟩
  | append_singleton l p ih =>
      have hstep : phiEnv (l ++ [p]) env =
          Function.update (phiEnv l env) p.rId (some (.inst p.phiInst)) := phiEnv_append l [p] env
      rw [hstep]
      by_cases ha : a = p.rId
      · subst ha
        exact .inr ⟨p, by simp, rfl, Function.update_self _ _ _⟩
      · rw [Function.update_of_ne ha]
        rcases ih with ⟨heq, hno⟩ | ⟨q, hq, hqa, heq⟩
        · refine .inl ⟨heq, fun q hq => ?_⟩
          rcases List.mem_append.mp hq with hq | hq
          · exact hno q hq
          · rw [List.mem_singleton.mp hq]
            exact Ne.symm ha
        · exact .inr ⟨q, List.mem_append_left _ hq, hqa, heq⟩

/-- A register has a value after phis if it had one, or a phi is for it. -/
theorem phiEnv_ne_none {l : List PhiInfo} {a : ℕ} :
    phiEnv l env a ≠ none ↔ env a ≠ none ∨ ∃ p ∈ l, p.rId = a := by
  rcases phiEnv_cases l env a with ⟨heq, hno⟩ | ⟨p, hp, hpa, heq⟩
  · rw [heq]
    exact ⟨.inl, fun h => h.elim id fun ⟨p, hp, hpa⟩ => absurd hpa (hno p hp)⟩
  · rw [heq]
    exact iff_of_true (Option.some_ne_none _) (.inr ⟨p, hp, hpa⟩)

end Block
