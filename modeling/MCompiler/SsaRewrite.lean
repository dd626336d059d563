/-
# What renaming does to the instructions

`Rewritten ir₀ done ρ pushed ir` : compared with `ir₀`, the instructions in `done` have been
removed from their blocks, the result of the instruction `i` is replaced by `ρ i`, and the
phis have been given the operands `pushed`.  Each step of the renaming keeps this, with
one more entry in one of the three.
-/
import MCompiler.IrUses
import MCompiler.SsaConversion

/-- The objects of an `ir_context_t`, pointing to each other as they should. -/
structure HeapOk (ir : Ir) : Prop where
  uses : UseLists ir
  fresh : ∀ i, ir.instCount ≤ i → (ir.insts i).uses = []
  nodup : ∀ b, (ir.blocks b).Nodup
  parent : ∀ b, ∀ i ∈ ir.blocks b, (ir.insts i).parent = b
  allocated : ∀ b, ∀ i ∈ ir.blocks b, i < ir.instCount
  operand : ∀ u i, ir.operand u = some (.inst i) → i < ir.instCount

/-- The instruction at which a block is split. -/
theorem mem_of_split {l pre post : List ℕ} {i : ℕ} (h : l = pre ++ i :: post) : i ∈ l :=
  h ▸ List.mem_append_cons_self

/-- An operand of a phi: the value for the block `block`. -/
structure PhiOperand where
  block : ℕ
  phi : ℕ
  value : Value
  deriving DecidableEq

/-- The operands of a phi, among those of all phis. -/
def phiUses (pushed : List PhiOperand) (phi : ℕ) : List (Option Value) :=
  pushed.flatMap fun e => if e.phi = phi then [some (.block e.block), some e.value] else []

/-- The value that replaces a value. -/
def sub (ρ : ℕ → Value) : Value → Value
  | .inst i => ρ i
  | v => v

/-- The instructions after some steps of the renaming. -/
structure Rewritten (ir₀ : Ir) (done : List ℕ) (ρ : ℕ → Value) (pushed : List PhiOperand)
    (ir : Ir) : Prop where
  insts : ∀ i, ir.insts i = { ir₀.insts i with
    uses := (ir₀.insts i).uses.map (Option.map (sub ρ)) ++ phiUses pushed i }
  blocks : ∀ b, ir.blocks b = (ir₀.blocks b).filter (· ∉ done)
  uses : UseLists ir
  consts : ir.consts = ir₀.consts
  instCount : ir.instCount = ir₀.instCount
  blockCount : ir.blockCount = ir₀.blockCount
  constCount : ir.constCount = ir₀.constCount
  nodup : pushed.Nodup

@[simp] theorem sub_inst : sub Value.inst = id := by
  funext v
  cases v <;> rfl

theorem phiUses_append (pushed pushed' : List PhiOperand) (phi : ℕ) :
    phiUses (pushed ++ pushed') phi = phiUses pushed phi ++ phiUses pushed' phi :=
  List.flatMap_append

/-- The pairs of a phi. -/
theorem phiHasPair_phiUses (pushed : List PhiOperand) (phi block : ℕ) (value : Value) :
    phiHasPair block value (phiUses pushed phi) = true ↔ ⟨block, phi, value⟩ ∈ pushed := by
  induction pushed with
  | nil => simp [phiUses, phiHasPair]
  | cons e pushed ih =>
      obtain ⟨b, p, v⟩ := e
      have hcons : phiUses (⟨b, p, v⟩ :: pushed) phi =
          (if p = phi then [some (.block b), some v] else []) ++ phiUses pushed phi := rfl
      rw [hcons, List.mem_cons]
      by_cases hp : p = phi
      · subst hp
        rw [if_pos rfl]
        show phiHasPair block value (some (.block b) :: some v :: phiUses pushed p) = true ↔ _
        rw [phiHasPair]
        simp only [decide_eq_true_eq, ih]
        simp [eq_comm]
      · rw [if_neg hp, List.nil_append, ih]
        simp [Ne.symm hp]

/-- The operands of phis among the slots. -/
theorem some_mem_phiUses {pushed : List PhiOperand} {phi : ℕ} {v : Value} :
    some v ∈ phiUses pushed phi ↔
      ∃ e ∈ pushed, e.phi = phi ∧ (v = .block e.block ∨ v = e.value) := by
  unfold phiUses
  rw [List.mem_flatMap]
  refine exists_congr fun e => and_congr_right fun _ => ?_
  split <;> simp_all

section Steps

variable {ir₀ ir : Ir} {done : List ℕ} {ρ : ℕ → Value} {pushed : List PhiOperand}

theorem Rewritten.start (h : HeapOk ir₀) : Rewritten ir₀ [] .inst [] ir₀ where
  insts i := by simp [phiUses]
  blocks b := by simp
  uses := h.uses
  consts := rfl
  instCount := rfl
  blockCount := rfl
  constCount := rfl
  nodup := List.nodup_nil

theorem Rewritten.type (h : Rewritten ir₀ done ρ pushed ir) (i : ℕ) :
    (ir.insts i).type = (ir₀.insts i).type := by
  rw [h.insts]

theorem Rewritten.parent (h : Rewritten ir₀ done ρ pushed ir) (i : ℕ) :
    (ir.insts i).parent = (ir₀.insts i).parent := by
  rw [h.insts]

/-- The operands of an instruction that is no phi. -/
theorem Rewritten.operand (h : Rewritten ir₀ done ρ pushed ir) {i : ℕ}
    (hi : phiUses pushed i = []) (k : ℕ) :
    ir.operand ⟨i, k⟩ = (ir₀.operand ⟨i, k⟩).map (sub ρ) := by
  unfold Ir.operand
  dsimp only
  rw [h.insts]
  dsimp only
  rw [hi, List.append_nil, List.getElem?_map]
  cases (ir₀.insts i).uses[k]? with
  | none => rfl
  | some o => rfl

/-- Replacing the result of `i` everywhere. -/
theorem Rewritten.replace (h : Rewritten ir₀ done ρ pushed ir) {i : ℕ} {v : Value}
    (hρ : ∀ j, ρ j = .inst i ↔ j = i) (hpushed : ∀ e ∈ pushed, e.value ≠ .inst i)
    (hv : v ≠ .inst i) :
    Rewritten ir₀ done (Function.update ρ i v) pushed (valueReplaceAllUses ir (.inst i) v) := by
  obtain ⟨hlists, honly, huses⟩ := valueReplaceAllUses_spec h.uses (Ne.symm hv)
  refine ⟨fun j => ?_, fun b => ?_, hlists, honly.consts.trans h.consts,
    honly.instCount.trans h.instCount, honly.blockCount.trans h.blockCount,
    honly.constCount.trans h.constCount, h.nodup⟩
  · rw [honly.insts, huses, h.insts]
    dsimp only
    rw [List.map_append, List.map_map]
    have hold : (fun o => if o = some (.inst i) then some v else o) ∘ Option.map (sub ρ) =
        Option.map (sub (Function.update ρ i v)) := by
      funext o
      rw [Function.comp_apply]
      cases o with
      | none => rfl
      | some w =>
          cases w with
          | const c => rfl
          | block b => rfl
          | inst j =>
              by_cases hj : j = i
              · subst hj
                simp [sub, (hρ j).mpr rfl]
              · have hne : ρ j ≠ .inst i := fun hne => hj ((hρ j).mp hne)
                simp [sub, hne, hj]
    have hphi : (phiUses pushed j).map (fun o => if o = some (.inst i) then some v else o) =
        phiUses pushed j := by
      rw [List.map_congr_left (g := id), List.map_id]
      intro o ho
      split
      · rename_i heq
        subst heq
        obtain ⟨e, he, -, hval | hval⟩ := some_mem_phiUses.mp ho
        · cases hval
        · exact absurd hval.symm (hpushed e he)
      · rfl
    rw [hold, hphi]
  · rw [honly.blocks, h.blocks]

/-- Removing an instruction from its block. -/
theorem Rewritten.remove (h : Rewritten ir₀ done ρ pushed ir) (hheap : HeapOk ir₀) {b i : ℕ}
    (hi : i ∈ ir₀.blocks b) : Rewritten ir₀ (done ++ [i]) ρ pushed (instRemove ir i) := by
  refine ⟨h.insts, fun b' => ?_, ⟨h.uses.mem, h.uses.nodup⟩, h.consts, h.instCount,
    h.blockCount, h.constCount, h.nodup⟩
  have hparent : (ir.insts i).parent = b := by
    rw [h.parent]
    exact hheap.parent b i hi
  show Function.update ir.blocks (ir.insts i).parent _ b' = _
  rw [hparent]
  by_cases hb : b' = b
  · subst hb
    rw [Function.update_self, h.blocks, ((hheap.nodup b').filter _).erase_eq_filter,
      List.filter_filter]
    apply List.filter_congr
    intro j _
    by_cases hj : j = i <;> simp [hj]
  · rw [Function.update_of_ne hb, h.blocks]
    apply List.filter_congr
    intro j hj
    have hne : j ≠ i := by
      rintro rfl
      exact hb ((hheap.parent b' j hj).symm.trans (hheap.parent b j hi))
    simp [hne]

/-- Giving a phi an operand. -/
theorem Rewritten.insert (h : Rewritten ir₀ done ρ pushed ir) {p : ℕ}
    (hp : (ir₀.insts p).uses = []) (block : ℕ) (v : Value) :
    ∃ ir', instPhiInsertValue ir p block v = some ir' ∧
      Rewritten ir₀ done ρ (if ⟨block, p, v⟩ ∈ pushed then pushed
        else pushed ++ [⟨block, p, v⟩]) ir' := by
  obtain ⟨ir', hrun, hlists, honly, huses⟩ := instPhiInsertValue_spec h.uses p block v
  refine ⟨ir', hrun, fun i => ?_, fun b => ?_, hlists, honly.consts.trans h.consts,
    honly.instCount.trans h.instCount, honly.blockCount.trans h.blockCount,
    honly.constCount.trans h.constCount, ?_⟩
  · have huses_p : (ir.insts p).uses = phiUses pushed p := by
      rw [h.insts, hp]
      rfl
    rw [honly.insts, huses, huses_p, h.insts]
    by_cases hmem : ⟨block, p, v⟩ ∈ pushed
    · have hpair := (phiHasPair_phiUses pushed p block v).mpr hmem
      rw [if_pos hmem, if_neg (by simp [hpair])]
    · have hpair : phiHasPair block v (phiUses pushed p) = false := by
        rw [Bool.eq_false_iff]
        exact fun hpair => hmem ((phiHasPair_phiUses pushed p block v).mp hpair)
      rw [if_neg hmem, phiUses_append]
      by_cases hi : i = p
      · subst hi
        rw [if_pos ⟨rfl, hpair⟩]
        simp [phiUses]
      · rw [if_neg (fun hand => hi hand.1)]
        simp [phiUses, Ne.symm hi]
  · rw [honly.blocks, h.blocks]
  · split
    · exact h.nodup
    · rename_i hmem
      rw [← List.concat_eq_append]
      exact h.nodup.concat hmem

end Steps
