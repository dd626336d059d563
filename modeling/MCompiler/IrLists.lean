/-
# Functions given by lists

`irOfLists insts blocks consts` : the function with these instructions, blocks and constants.
The use lists are computed from the operands, so that they agree with them
(`heapOk_irOfLists`).
-/
import MCompiler.SsaRewrite
import Mathlib.Data.List.GetD

/-- The slots of a list of instructions. -/
def slotsOf (insts : List Instruction) : List Use :=
  (List.range insts.length).flatMap fun i =>
    (List.range (insts.getD i ⟨.ret, .void, [], 0⟩).uses.length).map (Use.mk i)

/-- The operand in a slot. -/
def operandOf (insts : List Instruction) (u : Use) : Option Value :=
  ((insts.getD u.inst ⟨.ret, .void, [], 0⟩).uses[u.slot]?).join

/-- The function with the instructions, blocks and constants of three lists. -/
def irOfLists (insts : List Instruction) (blocks : List (List ℕ)) (consts : List Int64) : Ir where
  insts i := insts.getD i ⟨.ret, .void, [], 0⟩
  blocks b := blocks.getD b []
  consts c := consts.getD c 0
  uses v := (slotsOf insts).filter fun u => operandOf insts u = some v
  instCount := insts.length
  blockCount := blocks.length
  constCount := consts.length

/-- The instructions and blocks fit together. -/
def ListsOk (insts : List Instruction) (blocks : List (List ℕ)) : Bool :=
  blocks.all (fun l => l.Nodup) &&
  (List.range blocks.length).all (fun b => (blocks.getD b []).all fun i =>
    i < insts.length && (insts.getD i ⟨.ret, .void, [], 0⟩).parent = b) &&
  insts.all fun inst => inst.uses.all fun o =>
    match o with
    | some (.inst j) => j < insts.length
    | _ => true

section IrOfLists

variable {insts : List Instruction} {blocks : List (List ℕ)} {consts : List Int64}

theorem operand_irOfLists (u : Use) :
    (irOfLists insts blocks consts).operand u = operandOf insts u := rfl

theorem mem_slotsOf {u : Use} {v : Value} (h : operandOf insts u = some v) :
    u ∈ slotsOf insts := by
  obtain ⟨i, k⟩ := u
  unfold operandOf at h
  have hslot := Option.join_eq_some_iff.mp h
  dsimp only at hslot
  obtain ⟨hk, -⟩ := List.getElem?_eq_some_iff.mp hslot
  have hi : i < insts.length := by
    by_contra hi
    rw [List.getD_eq_default _ _ (Nat.le_of_not_lt hi)] at hk
    exact absurd hk (Nat.not_lt_zero _)
  exact List.mem_flatMap.mpr ⟨i, List.mem_range.mpr hi,
    List.mem_map.mpr ⟨k, List.mem_range.mpr hk, rfl⟩⟩

theorem nodup_slotsOf (insts : List Instruction) : (slotsOf insts).Nodup := by
  apply List.nodup_flatMap.mpr
  constructor
  · intro i _
    exact List.nodup_range.map fun a b hab => (Use.mk.inj hab).2
  · refine List.nodup_range.imp_of_mem fun _ _ hij => ?_
    intro u hi hj
    obtain ⟨k, -, rfl⟩ := List.mem_map.mp hi
    obtain ⟨k', -, heq⟩ := List.mem_map.mp hj
    exact hij (Use.mk.inj heq).1.symm

/-- An instruction of a block. -/
theorem ListsOk.of_mem (h : ListsOk insts blocks = true) {b i : ℕ} (hi : i ∈ blocks.getD b []) :
    i < insts.length ∧ (insts.getD i ⟨.ret, .void, [], 0⟩).parent = b := by
  unfold ListsOk at h
  rw [Bool.and_eq_true, Bool.and_eq_true] at h
  have hb : b < blocks.length := by
    by_contra hb
    rw [List.getD_eq_default _ _ (Nat.le_of_not_lt hb)] at hi
    cases hi
  have hall := List.all_eq_true.mp (List.all_eq_true.mp h.1.2 b (List.mem_range.mpr hb)) i hi
  simpa using hall

/-- **The objects point to each other as they should.** -/
theorem heapOk_irOfLists (h : ListsOk insts blocks = true) :
    HeapOk (irOfLists insts blocks consts) := by
  refine ⟨⟨fun v u => ?_, fun v => (nodup_slotsOf insts).filter _⟩, fun i hi => ?_, fun b => ?_,
    fun b i hi => (ListsOk.of_mem h hi).2, fun b i hi => (ListsOk.of_mem h hi).1, fun u j hu => ?_⟩
  · rw [operand_irOfLists]
    constructor
    · intro hu
      simpa using (List.mem_filter.mp hu).2
    · exact fun hu => List.mem_filter.mpr ⟨mem_slotsOf hu, by simpa using hu⟩
  · show (insts.getD i ⟨.ret, .void, [], 0⟩).uses = []
    rw [List.getD_eq_default _ _ hi]
  · show (blocks.getD b []).Nodup
    unfold ListsOk at h
    rw [Bool.and_eq_true, Bool.and_eq_true] at h
    by_cases hb : b < blocks.length
    · have hmem : blocks.getD b [] ∈ blocks := by
        rw [List.getD_eq_getElem _ _ hb]
        exact List.getElem_mem hb
      simpa using List.all_eq_true.mp h.1.1 _ hmem
    · rw [List.getD_eq_default _ _ (Nat.le_of_not_lt hb)]
      exact List.nodup_nil
  · show j < insts.length
    unfold ListsOk at h
    rw [Bool.and_eq_true, Bool.and_eq_true] at h
    rw [operand_irOfLists, operandOf] at hu
    obtain ⟨hk, hval⟩ := List.getElem?_eq_some_iff.mp (Option.join_eq_some_iff.mp hu)
    have hi : u.inst < insts.length := by
      by_contra hi
      rw [List.getD_eq_default _ _ (Nat.le_of_not_lt hi)] at hk
      exact absurd hk (Nat.not_lt_zero _)
    have hinst : insts.getD u.inst ⟨.ret, .void, [], 0⟩ ∈ insts := by
      rw [List.getD_eq_getElem _ _ hi]
      exact List.getElem_mem hi
    have hop := List.all_eq_true.mp (List.all_eq_true.mp h.2 _ hinst) _ (List.getElem_mem hk)
    rw [hval] at hop
    simpa using hop

end IrOfLists
