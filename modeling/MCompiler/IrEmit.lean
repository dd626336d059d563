/-
# What the creation of instructions does to an `Ir`

Every constructor of `ir.c` allocates an instruction and sets its uses in order
(`Ir.create`); IR creation then appends it to a block (`Ir.emit`).  `Extends S` collects
what later code may rely on: instructions and constants stay as they are, blocks only grow
at their end, and the blocks outside `S` do not change.
-/
import MCompiler.IrCreationLayout

/-! ## Creating instructions -/

/-- The slots of a list of uses, from slot `k` on, that have the value `v`. -/
def usesOf (inst : ℕ) (v : Value) : ℕ → List (Option Value) → List Use
  | _, [] => []
  | k, x :: xs => (if x = some v then [⟨inst, k⟩] else []) ++ usesOf inst v (k + 1) xs

namespace Ir

/-- A new instruction, in no block, with its uses set. -/
def create (ir : Ir) (type : InstType) (dataType : DataType) (uses : List (Option Value)) : Ir :=
  { ir with
    insts := Function.update ir.insts ir.instCount ⟨type, dataType, uses, 0⟩
    uses := fun v => (if v = .inst ir.instCount then [] else ir.uses v) ++
      usesOf ir.instCount v 0 uses
    instCount := ir.instCount + 1 }

/-- A new instruction at the end of the block `b`. -/
def emit (ir : Ir) (b : ℕ) (type : InstType) (dataType : DataType)
    (uses : List (Option Value)) : Ir :=
  blockInsert (ir.create type dataType uses) b ir.instCount

end Ir

theorem usesOf_append (inst : ℕ) (v : Value) (k : ℕ) (xs ys : List (Option Value)) :
    usesOf inst v k (xs ++ ys) = usesOf inst v k xs ++ usesOf inst v (k + xs.length) ys := by
  induction xs generalizing k with
  | nil => rfl
  | cons x xs ih =>
      show _ ++ usesOf inst v (k + 1) (xs ++ ys) = _
      rw [ih, List.length_cons, usesOf, List.append_assoc, Nat.add_right_comm, Nat.add_assoc k]

theorem usesOf_replicate (inst : ℕ) (v : Value) (k m : ℕ) :
    usesOf inst v k (List.replicate m none) = [] := by
  induction m generalizing k with
  | zero => rfl
  | succ m ih =>
      rw [List.replicate_succ, usesOf, if_neg (by simp), ih]
      rfl

/-- The next use is not set yet. -/
theorem usesOf_unset (inst : ℕ) (w : Value) (pre : List (Option Value)) (m : ℕ) :
    usesOf inst w 0 (pre ++ none :: List.replicate m none) = usesOf inst w 0 pre := by
  rw [usesOf_append, ← List.replicate_succ, usesOf_replicate, List.append_nil]

/-- The next use has been set. -/
theorem usesOf_set (inst : ℕ) (w v : Value) (pre : List (Option Value)) (m : ℕ) :
    usesOf inst w 0 (pre ++ some v :: List.replicate m none) =
      usesOf inst w 0 pre ++ if v = w then [⟨inst, pre.length⟩] else [] := by
  rw [usesOf_append, usesOf, usesOf_replicate, List.append_nil, Nat.zero_add]
  simp only [Option.some.injEq]

theorem mem_usesOf {inst : ℕ} {v : Value} {k : ℕ} {xs : List (Option Value)} {u : Use} :
    u ∈ usesOf inst v k xs ↔ u.inst = inst ∧ k ≤ u.slot ∧ xs[u.slot - k]? = some (some v) := by
  induction xs generalizing k with
  | nil => simp [usesOf]
  | cons x xs ih =>
      obtain ⟨i, s⟩ := u
      rw [usesOf, List.mem_append, ih]
      by_cases hs : s = k
      · subst hs
        have hle : ¬ s + 1 ≤ s := Nat.not_succ_le_self s
        by_cases hx : x = some v <;> simp [hx, hle]
      · have hfirst : (⟨i, s⟩ : Use) ∉ (if x = some v then [(⟨inst, k⟩ : Use)] else []) := by
          split <;> simp [hs]
        constructor
        · rintro (h | ⟨hi, hk : k + 1 ≤ s, hx⟩)
          · exact absurd h hfirst
          · obtain ⟨d, hd⟩ : ∃ d, s - k = d + 1 := ⟨s - k - 1, by omega⟩
            refine ⟨hi, Nat.le_of_succ_le hk, ?_⟩
            rw [show s - (k + 1) = d from by omega] at hx
            rw [hd]
            exact hx
        · rintro ⟨hi, hk : k ≤ s, hx⟩
          obtain ⟨d, hd⟩ : ∃ d, s - k = d + 1 := ⟨s - k - 1, by omega⟩
          refine .inr ⟨hi, show k + 1 ≤ s from by omega, ?_⟩
          rw [hd] at hx
          rw [show s - (k + 1) = d from by omega]
          exact hx

theorem instNew_eq (ir : Ir) (type : InstType) (dataType : DataType) (m : ℕ) :
    instNew ir type dataType m =
      (ir.create type dataType (List.replicate m none), ir.instCount) := by
  unfold instNew Ir.create
  have huses : Function.update ir.uses (.inst ir.instCount) [] = fun v =>
      (if v = .inst ir.instCount then [] else ir.uses v) ++
        usesOf ir.instCount v 0 (List.replicate m none) := by
    funext v
    rw [usesOf_replicate, List.append_nil, Function.update_apply]
  rw [huses]

/-- **Setting a use** of a new instruction, in the order of the slots. -/
theorem instSetUse_create (ir : Ir) (type : InstType) (dataType : DataType)
    (pre : List (Option Value)) (m : ℕ) (v : Value) :
    instSetUse (ir.create type dataType (pre ++ none :: List.replicate m none)) ir.instCount
      pre.length v = some (ir.create type dataType (pre ++ some v :: List.replicate m none)) := by
  have hinst : (ir.create type dataType (pre ++ none :: List.replicate m none)).insts
      ir.instCount = ⟨type, dataType, pre ++ none :: List.replicate m none, 0⟩ :=
    Function.update_self _ _ _
  have hslot : (pre ++ none :: List.replicate m none)[pre.length]? = some none := by
    rw [List.getElem?_append_right (Nat.le_refl _), Nat.sub_self]
    rfl
  rw [instSetUse, hinst]
  simp only [hslot]
  unfold Ir.writeUse Ir.addUse
  rw [hinst]
  have hset : (pre ++ none :: List.replicate m none).set pre.length (some v) =
      pre ++ some v :: List.replicate m none := by
    rw [List.set_append_right _ _ (Nat.le_refl _), Nat.sub_self]
    rfl
  have huses : Function.update
        (ir.create type dataType (pre ++ none :: List.replicate m none)).uses v
        ((ir.create type dataType (pre ++ none :: List.replicate m none)).uses v ++
          [⟨ir.instCount, pre.length⟩]) =
      (ir.create type dataType (pre ++ some v :: List.replicate m none)).uses := by
    funext w
    unfold Ir.create
    rw [Function.update_apply]
    by_cases hw : w = v
    · subst hw
      simp only [usesOf_unset, usesOf_set, if_true, List.append_assoc]
    · simp only [usesOf_unset, usesOf_set, if_neg hw, if_neg (Ne.symm hw), List.append_nil]
  have hinsts : Function.update
        (ir.create type dataType (pre ++ none :: List.replicate m none)).insts ir.instCount
        ⟨type, dataType, pre ++ some v :: List.replicate m none, 0⟩ =
      (ir.create type dataType (pre ++ some v :: List.replicate m none)).insts :=
    Function.update_idem _ _ _
  rw [hset, huses, hinsts]
  rfl

theorem instNewJump_eq (ir : Ir) (block : ℕ) :
    instNewJump ir block = some (ir.create .jump .void [some (.block block)], ir.instCount) := by
  have h := instSetUse_create ir .jump .void [] 0 (.block block)
  unfold instNewJump
  rw [instNew_eq]
  exact congrArg (fun o => o.bind fun ir' => some (ir', ir.instCount)) h

theorem instNewAssignVar_eq (ir : Ir) (i : ℕ) (value : Value) :
    instNewAssignVar ir i value =
      some (ir.create (.assignVar i) .void [some value], ir.instCount) := by
  have h := instSetUse_create ir (.assignVar i) .void [] 0 value
  unfold instNewAssignVar
  rw [instNew_eq]
  exact congrArg (fun o => o.bind fun ir' => some (ir', ir.instCount)) h

theorem instNewJumpCond_eq (ir : Ir) (a b : ℕ) (cond : Value) :
    instNewJumpCond ir a b cond =
      some (ir.create .jumpCond .void [some (.block a), some (.block b), some cond],
        ir.instCount) := by
  have ha := instSetUse_create ir .jumpCond .void [] 2 (.block a)
  have hb := instSetUse_create ir .jumpCond .void [some (.block a)] 1 (.block b)
  have hc := instSetUse_create ir .jumpCond .void [some (.block a), some (.block b)] 0 cond
  unfold instNewJumpCond
  rw [instNew_eq]
  refine (congrArg (fun o => o.bind fun ir₁ => (instSetUse ir₁ ir.instCount 1 (.block b)).bind
    fun ir₂ => (instSetUse ir₂ ir.instCount 2 cond).bind fun ir₃ => some (ir₃, ir.instCount))
    ha).trans ?_
  refine (congrArg (fun o => o.bind fun ir₂ => (instSetUse ir₂ ir.instCount 2 cond).bind
    fun ir₃ => some (ir₃, ir.instCount)) hb).trans ?_
  exact congrArg (fun o => o.bind fun ir₃ => some (ir₃, ir.instCount)) hc

theorem instNewBinary_eq (ir : Ir) (op : BinaryOps) (a b : Value)
    (h : ir.dataType a = ir.dataType b) :
    instNewBinary ir op a b =
      some (ir.create (.binary op) (ir.dataType a) [some a, some b], ir.instCount) := by
  have ha := instSetUse_create ir (.binary op) (ir.dataType a) [] 1 a
  have hb := instSetUse_create ir (.binary op) (ir.dataType a) [some a] 0 b
  unfold instNewBinary
  rw [instNew_eq, h]
  rw [h] at ha hb
  refine Eq.trans ?_ ((congrArg (fun o => o.bind fun ir₁ => (instSetUse ir₁ ir.instCount 1 b).bind
    fun ir₂ => some (ir₂, ir.instCount)) ha).trans
      (congrArg (fun o => o.bind fun ir₂ => some (ir₂, ir.instCount)) hb))
  simp [guard]

theorem instNewBinary_isSome {ir : Ir} {op : BinaryOps} {a b : Value} {r : Ir × ℕ}
    (h : instNewBinary ir op a b = some r) : ir.dataType a = ir.dataType b := by
  by_contra hne
  unfold instNewBinary at h
  simp [guard, hne] at h

/-! ## Extensions -/

/-- What an `Ir` contains stays: blocks grow at their end, and only those in `S`. -/
structure Extends (S : ℕ → Prop) (ir ir' : Ir) : Prop where
  instCount : ir.instCount ≤ ir'.instCount
  blockCount : ir.blockCount ≤ ir'.blockCount
  constCount : ir.constCount ≤ ir'.constCount
  insts : ∀ i < ir.instCount, ir'.insts i = ir.insts i
  consts : ∀ c < ir.constCount, ir'.consts c = ir.consts c
  blocks : ∀ b < ir.blockCount, ir.blocks b <+: ir'.blocks b
  unchanged : ∀ b < ir.blockCount, ¬ S b → ir'.blocks b = ir.blocks b

namespace Extends

variable {S S' T : ℕ → Prop} {ir ir' ir'' : Ir}

theorem refl (S : ℕ → Prop) (ir : Ir) : Extends S ir ir where
  instCount := Nat.le_refl _
  blockCount := Nat.le_refl _
  constCount := Nat.le_refl _
  insts _ _ := rfl
  consts _ _ := rfl
  blocks _ _ := List.prefix_refl _
  unchanged _ _ _ := rfl

theorem trans (h : Extends S ir ir') (h' : Extends S' ir' ir'')
    (hT : ∀ b < ir.blockCount, ¬ T b → ¬ S b ∧ ¬ S' b) : Extends T ir ir'' where
  instCount := Nat.le_trans h.instCount h'.instCount
  blockCount := Nat.le_trans h.blockCount h'.blockCount
  constCount := Nat.le_trans h.constCount h'.constCount
  insts i hi := (h'.insts i (Nat.lt_of_lt_of_le hi h.instCount)).trans (h.insts i hi)
  consts c hc := (h'.consts c (Nat.lt_of_lt_of_le hc h.constCount)).trans (h.consts c hc)
  blocks b hb := (h.blocks b hb).trans (h'.blocks b (Nat.lt_of_lt_of_le hb h.blockCount))
  unchanged b hb hTb :=
    (h'.unchanged b (Nat.lt_of_lt_of_le hb h.blockCount) (hT b hb hTb).2).trans
      (h.unchanged b hb (hT b hb hTb).1)

theorem mono (h : Extends S ir ir') (hT : ∀ b < ir.blockCount, ¬ T b → ¬ S b) :
    Extends T ir ir' :=
  { h with unchanged := fun b hb hTb => h.unchanged b hb (hT b hb hTb) }

/-- An instruction that is in a block stays at its position. -/
theorem hasInst (h : Extends S ir ir') {b k i : ℕ} {type : InstType}
    {uses : List (Option Value)} (hb : b < ir.blockCount) (hi : i < ir.instCount)
    (hinst : HasInst ir b k i type uses) : HasInst ir' b k i type uses where
  pos := by
    obtain ⟨l, hl⟩ := h.blocks b hb
    obtain ⟨hk, -⟩ := List.getElem?_eq_some_iff.mp hinst.pos
    rw [← hl, List.getElem?_append_left hk]
    exact hinst.pos
  type := by rw [h.insts i hi, hinst.type]
  uses := by rw [h.insts i hi, hinst.uses]

end Extends

/-! ## Emitting instructions -/

section Emit

variable (ir : Ir) (b : ℕ) (type : InstType) (dataType : DataType) (uses : List (Option Value))

@[simp] theorem emit_instCount : (ir.emit b type dataType uses).instCount = ir.instCount + 1 := rfl

@[simp] theorem emit_blockCount : (ir.emit b type dataType uses).blockCount = ir.blockCount := rfl

@[simp] theorem emit_constCount : (ir.emit b type dataType uses).constCount = ir.constCount := rfl

@[simp] theorem emit_consts : (ir.emit b type dataType uses).consts = ir.consts := rfl

theorem emit_blocks_self : (ir.emit b type dataType uses).blocks b =
    ir.blocks b ++ [ir.instCount] := Function.update_self _ _ _

theorem emit_blocks_of_ne {b' : ℕ} (h : b' ≠ b) :
    (ir.emit b type dataType uses).blocks b' = ir.blocks b' := Function.update_of_ne h _ _

theorem emit_insts_self : (ir.emit b type dataType uses).insts ir.instCount =
    ⟨type, dataType, uses, b⟩ := by
  show Function.update _ ir.instCount _ ir.instCount = _
  rw [Function.update_self]
  show { Function.update ir.insts ir.instCount _ ir.instCount with parent := b } = _
  rw [Function.update_self]

theorem emit_insts_of_ne {i : ℕ} (h : i ≠ ir.instCount) :
    (ir.emit b type dataType uses).insts i = ir.insts i := by
  show Function.update _ ir.instCount _ i = _
  rw [Function.update_of_ne h]
  exact Function.update_of_ne h _ _

theorem emit_uses (v : Value) : (ir.emit b type dataType uses).uses v =
    (if v = .inst ir.instCount then [] else ir.uses v) ++ usesOf ir.instCount v 0 uses := rfl

theorem hasInst_emit : HasInst (ir.emit b type dataType uses) b (ir.blocks b).length
    ir.instCount type uses where
  pos := by
    rw [emit_blocks_self, List.getElem?_append_right (Nat.le_refl _), Nat.sub_self]
    rfl
  type := by rw [emit_insts_self]
  uses := by rw [emit_insts_self]

theorem extends_emit : Extends (· = b) ir (ir.emit b type dataType uses) where
  instCount := Nat.le_succ _
  blockCount := Nat.le_refl _
  constCount := Nat.le_refl _
  insts i hi := emit_insts_of_ne ir b type dataType uses (Nat.ne_of_lt hi)
  consts _ _ := rfl
  blocks b' _ := by
    by_cases h : b' = b
    · subst h
      rw [emit_blocks_self]
      exact List.prefix_append _ _
    · exact (emit_blocks_of_ne ir b type dataType uses h) ▸ List.prefix_refl _
  unchanged b' _ h := emit_blocks_of_ne _ _ _ _ _ h

end Emit

/-- A new block is empty, and changes nothing else. -/
theorem extends_blockNew (ir : Ir) : Extends (fun _ => False) ir (blockNew ir).1 where
  instCount := Nat.le_refl _
  blockCount := Nat.le_succ _
  constCount := Nat.le_refl _
  insts _ _ := rfl
  consts _ _ := rfl
  blocks b hb := by
    have h : (blockNew ir).1.blocks b = ir.blocks b := Function.update_of_ne (Nat.ne_of_lt hb) _ _
    exact h ▸ List.prefix_refl _
  unchanged b hb _ := Function.update_of_ne (Nat.ne_of_lt hb) _ _

@[simp] theorem blockNew_snd (ir : Ir) : (blockNew ir).2 = ir.blockCount := rfl

@[simp] theorem blockNew_blockCount (ir : Ir) : (blockNew ir).1.blockCount = ir.blockCount + 1 :=
  rfl

@[simp] theorem blockNew_instCount (ir : Ir) : (blockNew ir).1.instCount = ir.instCount := rfl

@[simp] theorem blockNew_insts (ir : Ir) : (blockNew ir).1.insts = ir.insts := rfl

theorem blockNew_blocks_self (ir : Ir) : (blockNew ir).1.blocks ir.blockCount = [] :=
  Function.update_self _ _ _

theorem blockNew_blocks_of_ne (ir : Ir) {b : ℕ} (h : b ≠ ir.blockCount) :
    (blockNew ir).1.blocks b = ir.blocks b := Function.update_of_ne h _ _

/-- A new constant changes nothing else. -/
theorem extends_irConstantValue (ir : Ir) (value : Int64) :
    Extends (fun _ => False) ir (irConstantValue ir value).1 where
  instCount := Nat.le_refl _
  blockCount := Nat.le_refl _
  constCount := Nat.le_succ _
  insts _ _ := rfl
  consts _ hc := Function.update_of_ne (Nat.ne_of_lt hc) _ _
  blocks _ _ := List.prefix_refl _
  unchanged _ _ _ := rfl
