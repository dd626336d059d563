/-
# Def-use chains along runs

`useRun_consistent_iff` : whatever operands are set, replaced and added to phis, the use
lists agree with the operands.  The slots of a phi stay inside its buffer as long as it has
at most 16 pairs: `dbuffer_pushPtr` makes room for so many only.
-/
import MCompiler.Buffer
import MCompiler.IrUses

open Runs

/-! ## Calls -/

/-- A call that creates an object or changes its operands. -/
inductive UseOp where
  | constantValue (value : Int64)
  | blockNew
  | newLoadVar (rId : ℕ) (type : DataType)
  | newAssignVar (rId : ℕ) (value : Value)
  | newBinary (op : BinaryOps) (a b : Value)
  | newJump (block : ℕ)
  | newJumpCond (a b : ℕ) (cond : Value)
  | newPhi (type : DataType)
  | setUse (inst useOffset : ℕ) (value : Value)
  | replaceAllUses (value replacement : Value)
  | phiInsertValue (phi block : ℕ) (value : Value)

/-- One call. -/
def useStep (ir : Ir) : UseOp → Option Ir
  | .constantValue value => some (irConstantValue ir value).1
  | .blockNew => some (blockNew ir).1
  | .newLoadVar rId type => some (instNewLoadVar ir rId type).1
  | .newAssignVar rId value => (instNewAssignVar ir rId value).map Prod.fst
  | .newBinary op a b => (instNewBinary ir op a b).map Prod.fst
  | .newJump block => (instNewJump ir block).map Prod.fst
  | .newJumpCond a b cond => (instNewJumpCond ir a b cond).map Prod.fst
  | .newPhi type => some (instNewPhi ir type).1
  | .setUse inst useOffset value => instSetUse ir inst useOffset value
  | .replaceAllUses value replacement => some (valueReplaceAllUses ir value replacement)
  | .phiInsertValue phi block value => instPhiInsertValue ir phi block value

/-- The objects that a call names have been created, the slot that it sets exists, and a
value is not replaced by itself. -/
def UseOp.Allowed (ir : Ir) : UseOp → Prop
  | .newAssignVar _ value => ir.HasValue value
  | .newBinary _ a b => ir.HasValue a ∧ ir.HasValue b ∧ ir.dataType a = ir.dataType b
  | .newJump block => ir.HasValue (.block block)
  | .newJumpCond a b cond => ir.HasValue (.block a) ∧ ir.HasValue (.block b) ∧ ir.HasValue cond
  | .setUse inst useOffset value =>
      useOffset < (ir.insts inst).uses.length ∧ ir.HasValue value
  | .replaceAllUses value replacement =>
      ir.HasValue value ∧ ir.HasValue replacement ∧ replacement ≠ value
  | .phiInsertValue phi block value =>
      ir.HasValue (.inst phi) ∧ (ir.insts phi).type = .phi ∧ ir.HasValue (.block block) ∧
        ir.HasValue value
  | _ => True

instance (ir : Ir) (op : UseOp) : Decidable (op.Allowed ir) := by
  cases op <;> unfold UseOp.Allowed <;> infer_instance

/-! ## The buffer of a phi -/

/-- `phi->useBuffer` after `slots` calls of `dbuffer_pushPtr`: it starts with room for eight
pairs of pointers. -/
def phiBuffer (slots : ℕ) : Dbuffer :=
  (List.replicate slots (DbufferOp.pushPtr 0)).foldl dbufferStep (dbufferInitSize (8 * (8 * 2)))

/-- The slots of the phis lie in their buffers. -/
def PhisInside (ir : Ir) : Prop :=
  ∀ i, (ir.insts i).type = .phi → ∀ k < (ir.insts i).uses.length,
    (DbufferOp.pushPtr 0).Safe (phiBuffer k)

/-- The buffer grows once, to 32 pointers. -/
theorem phiBuffer_safe_iff (slots : ℕ) :
    (∀ k < slots, (DbufferOp.pushPtr 0).Safe (phiBuffer k)) ↔ slots ≤ 2 * 16 := by
  have hsafe : ∀ k < 32, (DbufferOp.pushPtr 0).Safe (phiBuffer k) := by decide
  have hover : ¬ (DbufferOp.pushPtr 0).Safe (phiBuffer 32) := by decide
  constructor
  · intro h
    by_contra hlt
    exact hover (h 32 (Nat.lt_of_not_le hlt))
  · intro hle k hk
    exact hsafe k (Nat.lt_of_lt_of_le hk hle)

/-! ## The claim of one call -/

/-- A call adds a pair to a phi only while it has fewer than 16. -/
def UseOp.HasRoom (ir : Ir) : UseOp → Prop
  | .phiInsertValue phi block value =>
      phiHasPair block value (ir.insts phi).uses ∨ (ir.insts phi).uses.length + 2 ≤ 2 * 16
  | _ => True

/-- What a call does beyond keeping the use lists. -/
def UseOp.Effect (ir ir' : Ir) : UseOp → Prop
  | .setUse inst useOffset value => ir'.operand ⟨inst, useOffset⟩ = some value
  | .replaceAllUses value replacement =>
      ir'.uses value = [] ∧ ir'.uses replacement = ir.uses replacement ++ ir.uses value
  | .phiInsertValue phi block value =>
      (ir'.insts phi).uses = if phiHasPair block value (ir.insts phi).uses
        then (ir.insts phi).uses else (ir.insts phi).uses ++ [some (.block block), some value]
  | _ => True

/-- After the call each operand is in the use list of its value, once, and in no other, each
use in a list is an operand with that value, and the slots of the phis are in their
buffers. -/
def UseOp.Consistent (ir : Ir) (op : UseOp) : Prop :=
  ∃ ir', useStep ir op = some ir' ∧
    (∀ u v, ir'.operand u = some v → (ir'.uses v).count u = 1 ∧ ∀ w, w ≠ v → u ∉ ir'.uses w) ∧
    (∀ v, ∀ u ∈ ir'.uses v, ir'.operand u = some v) ∧ PhisInside ir' ∧ op.Effect ir ir'

/-! ## Setting a slot -/

section Chains

variable {ir : Ir}

/-- Setting a slot to its value again moves the use to the end of the list. -/
theorem UseLists.resetUse (h : UseLists ir) {u : Use} {v : Value} (hu : ir.operand u = some v) :
    UseLists (((ir.deattachUse v u).addUse v u).writeUse u v) ∧
      ∀ u', (((ir.deattachUse v u).addUse v u).writeUse u v).slot u' =
        if u' = u then some (some v) else ir.slot u' := by
  have hslot : ∀ u', (((ir.deattachUse v u).addUse v u).writeUse u v).slot u' =
      if u' = u then some (some v) else ir.slot u' := fun u' =>
    slot_writeUse ((ir.deattachUse v u).addUse v u) u u' v (by
      show ir.slot u ≠ none
      rw [Ir.operand_eq_some.mp hu]
      exact Option.some_ne_none _)
  have huses : ∀ w, (((ir.deattachUse v u).addUse v u).writeUse u v).uses w =
      if w = v then (ir.uses v).erase u ++ [u] else ir.uses w := by
    intro w
    show Function.update (Function.update ir.uses v _) v (Function.update ir.uses v _ v ++ [u]) w = _
    by_cases hw : w = v
    · subst hw
      rw [Function.update_self, Function.update_self, if_pos rfl]
    · rw [Function.update_of_ne hw, Function.update_of_ne hw, if_neg hw]
  have hmem : u ∈ ir.uses v := (h.mem v u).mpr hu
  refine ⟨⟨fun w u' => ?_, fun w => ?_⟩, hslot⟩
  · have hsame : (if u' = u then some (some v) else ir.slot u') = ir.slot u' := by
      split
      · rename_i heq
        rw [heq, Ir.operand_eq_some.mp hu]
      · rfl
    rw [huses, Ir.operand_eq_some, hslot, hsame, ← Ir.operand_eq_some, ← h.mem]
    split
    · rename_i hw
      rw [hw, (List.perm_append_singleton u _).mem_iff, (List.perm_cons_erase hmem).mem_iff]
    · rfl
  · rw [huses]
    split
    · exact ((List.perm_append_singleton u _).trans (List.perm_cons_erase hmem).symm).nodup_iff.mpr
        (h.nodup v)
    · exact h.nodup w

/-- **`inst_setUse`** sets the slot, whatever it held. -/
theorem instSetUse_spec (h : UseLists ir) {inst k : ℕ} (hk : ir.slot ⟨inst, k⟩ ≠ none)
    (v : Value) : ∃ ir', instSetUse ir inst k v = some ir' ∧ UseLists ir' ∧ UsesOnly ir ir' ∧
      ∀ u, ir'.slot u = if u = ⟨inst, k⟩ then some (some v) else ir.slot u := by
  obtain ⟨o, ho⟩ := Option.ne_none_iff_exists'.mp hk
  cases o with
  | none =>
      refine ⟨_, instSetUse_of_unset ho, h.setUse ho, ?_, fun u => ?_⟩
      · exact (usesOnly_addUse ir _ v).trans (usesOnly_writeUse _ _ v)
      · exact slot_writeUse (ir.addUse v ⟨inst, k⟩) ⟨inst, k⟩ u v hk
  | some old =>
      have hset : instSetUse ir inst k v =
          some (((ir.deattachUse old ⟨inst, k⟩).addUse v ⟨inst, k⟩).writeUse ⟨inst, k⟩ v) := by
        unfold Ir.slot at ho
        dsimp only at ho
        unfold instSetUse
        dsimp only
        rw [ho]
      have honly : UsesOnly ir
          (((ir.deattachUse old ⟨inst, k⟩).addUse v ⟨inst, k⟩).writeUse ⟨inst, k⟩ v) :=
        ((usesOnly_deattachUse ir _ old).trans (usesOnly_addUse _ _ v)).trans
          (usesOnly_writeUse _ _ v)
      have hop := Ir.operand_eq_some.mpr ho
      by_cases hold : old = v
      · subst hold
        obtain ⟨hlists, hslot⟩ := h.resetUse hop
        exact ⟨_, hset, hlists, honly, hslot⟩
      · obtain ⟨hlists, -, hslot⟩ := replaceUse_spec h hold hop
        exact ⟨_, hset, hlists, honly, hslot⟩

/-! ## The invariant -/

/-- The use lists agree with the operands, and operands have been created. -/
structure DefUse (ir : Ir) : Prop where
  uses : UseLists ir
  fresh : ∀ u : Use, ir.instCount ≤ u.inst → ir.slot u = none
  value : ∀ u v, ir.slot u = some (some v) → ir.HasValue v

theorem Ir.HasValue.congr {ir' : Ir} {v : Value} (h : ir.HasValue v) (honly : UsesOnly ir ir') :
    ir'.HasValue v := by
  cases v with
  | inst i => exact Nat.lt_of_lt_of_eq h honly.instCount.symm
  | const c => exact Nat.lt_of_lt_of_eq h honly.constCount.symm
  | block b => exact Nat.lt_of_lt_of_eq h honly.blockCount.symm

/-- An unused value that is created next has no uses yet. -/
theorem DefUse.uses_eq_nil (h : DefUse ir) {v : Value} (hv : ¬ ir.HasValue v) : ir.uses v = [] := by
  apply List.eq_nil_iff_forall_not_mem.mpr
  intro u hu
  exact hv (h.value u v (Ir.operand_eq_some.mp ((h.uses.mem v u).mp hu)))

theorem DefUse.update_uses (h : DefUse ir) {v : Value} (hv : ¬ ir.HasValue v) :
    Function.update ir.uses v [] = ir.uses := by
  apply Function.update_eq_self_iff.mpr
  exact (h.uses_eq_nil hv).symm

/-- `inst_setUse` with a value that has been created. -/
theorem DefUse.setUse (h : DefUse ir) {inst k : ℕ} (hk : ir.slot ⟨inst, k⟩ ≠ none) {v : Value}
    (hv : ir.HasValue v) : ∃ ir', instSetUse ir inst k v = some ir' ∧ DefUse ir' ∧
      UsesOnly ir ir' ∧ ∀ u, ir'.slot u = if u = ⟨inst, k⟩ then some (some v) else ir.slot u := by
  obtain ⟨ir', hset, hlists, honly, hslot⟩ := instSetUse_spec h.uses hk v
  refine ⟨ir', hset, ⟨hlists, fun u hu => ?_, fun u w hw => ?_⟩, honly, hslot⟩
  · rw [honly.instCount] at hu
    rw [hslot, if_neg, h.fresh u hu]
    rintro rfl
    exact hk (h.fresh _ hu)
  · rw [hslot] at hw
    split at hw
    · obtain rfl := Option.some.inj (Option.some.inj hw)
      exact hv.congr honly
    · exact (h.value u w hw).congr honly

/-! ## Phis -/

/-- The number of slots of a phi. -/
def Ir.phiSlots (ir : Ir) (i : ℕ) : ℕ :=
  if (ir.insts i).type = .phi then (ir.insts i).uses.length else 0

theorem phisInside_iff : PhisInside ir ↔ ∀ i, ir.phiSlots i ≤ 2 * 16 := by
  refine forall_congr' fun i => ?_
  unfold Ir.phiSlots
  split
  · rename_i hphi
    rw [phiBuffer_safe_iff]
    exact ⟨fun h => h hphi, fun h _ => h⟩
  · rename_i hphi
    exact ⟨fun _ => Nat.zero_le _, fun _ h => absurd h hphi⟩

/-- The number of slots is where they end. -/
theorem length_uses_eq {ir' : Ir} {i n : ℕ}
    (h : ∀ k, ir'.slot ⟨i, k⟩ = none ↔ n ≤ k) : (ir'.insts i).uses.length = n := by
  have hlength : ∀ k, (ir'.insts i).uses.length ≤ k ↔ n ≤ k := fun k =>
    List.getElem?_eq_none_iff.symm.trans (h k)
  apply Nat.le_antisymm
  · exact (hlength n).mpr (Nat.le_refl n)
  · exact (hlength _).mp (Nat.le_refl _)

/-- Calls that neither add nor remove slots. -/
theorem phiSlots_eq {ir' : Ir} (honly : UsesOnly ir ir')
    (hslot : ∀ u, ir'.slot u = none ↔ ir.slot u = none) (i : ℕ) :
    ir'.phiSlots i = ir.phiSlots i := by
  have htype : (ir'.insts i).type = (ir.insts i).type := by rw [honly.insts i]
  have hlength : (ir'.insts i).uses.length = (ir.insts i).uses.length := by
    apply length_uses_eq
    intro k
    exact (hslot ⟨i, k⟩).trans List.getElem?_eq_none_iff
  unfold Ir.phiSlots
  rw [htype, hlength]

/-! ## Creating objects -/

/-- `ir'` has the objects of `ir` and the phis as they are. -/
structure Creates (ir ir' : Ir) : Prop where
  defUse : DefUse ir'
  value : ∀ v, ir.HasValue v → ir'.HasValue v
  phis : ∀ i, ir'.phiSlots i = ir.phiSlots i

/-- A constant or a block that is created. -/
theorem DefUse.creates_of_insts (h : DefUse ir) {ir' : Ir} (hlists : ir'.uses = ir.uses)
    (hinsts : ir'.insts = ir.insts) (hcount : ir'.instCount = ir.instCount)
    (hvalue : ∀ v, ir.HasValue v → ir'.HasValue v) : Creates ir ir' := by
  have hslot : ∀ u, ir'.slot u = ir.slot u := by
    intro u
    unfold Ir.slot
    rw [hinsts]
  refine ⟨⟨⟨fun v u => ?_, fun v => ?_⟩, fun u hu => ?_, fun u v hu => ?_⟩, hvalue, fun i => ?_⟩
  · rw [hlists, Ir.operand_eq_some, hslot, ← Ir.operand_eq_some]
    exact h.uses.mem v u
  · rw [hlists]
    exact h.uses.nodup v
  · rw [hslot]
    exact h.fresh u (hcount ▸ hu)
  · rw [hslot] at hu
    exact hvalue v (h.value u v hu)
  · unfold Ir.phiSlots
    rw [hinsts]

theorem DefUse.const_new (h : DefUse ir) (value : Int64) :
    Creates ir (irConstantValue ir value).1 := by
  refine h.creates_of_insts (h.update_uses (v := .const ir.constCount) (Nat.lt_irrefl _)) rfl rfl ?_
  intro v hv
  cases v with
  | inst i => exact hv
  | const c => exact Nat.lt_succ_of_lt hv
  | block b => exact hv

theorem DefUse.block_new (h : DefUse ir) : Creates ir (blockNew ir).1 := by
  refine h.creates_of_insts (h.update_uses (v := .block ir.blockCount) (Nat.lt_irrefl _)) rfl rfl ?_
  intro v hv
  cases v with
  | inst i => exact hv
  | const c => exact hv
  | block b => exact Nat.lt_succ_of_lt hv

theorem slot_instNew (ir : Ir) (type : InstType) (dataType : DataType) (n : ℕ) (u : Use) :
    (instNew ir type dataType n).1.slot u =
      if u.inst = ir.instCount then (if u.slot < n then some none else none) else ir.slot u := by
  show ((Function.update ir.insts ir.instCount _ u.inst).uses)[u.slot]? = _
  split
  · rename_i hu
    rw [hu, Function.update_self]
    exact List.getElem?_replicate
  · rename_i hu
    rw [Function.update_of_ne hu]
    rfl

/-- `GEN_NEW_INST`, for a phi without slots or any other instruction. -/
theorem DefUse.inst_new (h : DefUse ir) (type : InstType) (dataType : DataType) {n : ℕ}
    (hn : type = .phi → n = 0) : Creates ir (instNew ir type dataType n).1 := by
  have hlists : (instNew ir type dataType n).1.uses = ir.uses :=
    h.update_uses (v := .inst ir.instCount) (Nat.lt_irrefl _)
  have hslot := slot_instNew ir type dataType n
  have hvalue : ∀ v, ir.HasValue v → (instNew ir type dataType n).1.HasValue v := by
    intro v hv
    cases v with
    | inst i => exact Nat.lt_succ_of_lt hv
    | const c => exact hv
    | block b => exact hv
  -- the new slots are not set
  have hset : ∀ u v, (instNew ir type dataType n).1.slot u = some (some v) ↔
      ir.slot u = some (some v) := by
    intro u v
    rw [hslot]
    split
    · rename_i hu
      rw [h.fresh u (Nat.le_of_eq hu.symm)]
      split <;> simp
    · rfl
  refine ⟨⟨⟨fun v u => ?_, fun v => ?_⟩, fun u hu => ?_, fun u v hu => ?_⟩, hvalue, fun i => ?_⟩
  · rw [hlists, Ir.operand_eq_some, hset, ← Ir.operand_eq_some]
    exact h.uses.mem v u
  · rw [hlists]
    exact h.uses.nodup v
  · have hne : u.inst ≠ ir.instCount := Nat.ne_of_gt hu
    rw [hslot, if_neg hne]
    exact h.fresh u (Nat.le_of_succ_le hu)
  · exact hvalue v (h.value u v ((hset u v).mp hu))
  · have hold : ir.phiSlots ir.instCount = 0 := by
      unfold Ir.phiSlots
      split
      · exact length_uses_eq fun k => ⟨fun _ => Nat.zero_le k, fun _ => h.fresh _ (Nat.le_refl _)⟩
      · rfl
    by_cases hi : i = ir.instCount
    · rw [hi, hold]
      unfold Ir.phiSlots
      show (if (Function.update ir.insts ir.instCount _ ir.instCount).type = .phi then
        (Function.update ir.insts ir.instCount _ ir.instCount).uses.length else 0) = 0
      rw [Function.update_self]
      split
      · rename_i hphi
        exact List.length_replicate.trans (hn hphi)
      · rfl
    · unfold Ir.phiSlots
      show (if (Function.update ir.insts ir.instCount _ i).type = .phi then
        (Function.update ir.insts ir.instCount _ i).uses.length else 0) = _
      rw [Function.update_of_ne hi]

/-- Setting a slot of an instruction that has been created in between. -/
theorem Creates.setUse {ir₁ : Ir} (h : Creates ir ir₁) {inst k : ℕ} (hk : ir₁.slot ⟨inst, k⟩ ≠ none)
    {v : Value} (hv : ir.HasValue v) : ∃ ir₂, instSetUse ir₁ inst k v = some ir₂ ∧
      Creates ir ir₂ ∧ ∀ u, ir₂.slot u = none ↔ ir₁.slot u = none := by
  obtain ⟨ir₂, hset, hdefUse, honly, hslot⟩ := h.defUse.setUse hk (h.value v hv)
  have hnone : ∀ u, ir₂.slot u = none ↔ ir₁.slot u = none := by
    intro u
    rw [hslot]
    split
    · rename_i hu
      rw [hu]
      simp [hk]
    · rfl
  exact ⟨ir₂, hset, ⟨hdefUse, fun v hv => (h.value v hv).congr honly,
    fun i => (phiSlots_eq honly hnone i).trans (h.phis i)⟩, hnone⟩

theorem DefUse.new_slots {n : ℕ} (type : InstType) (dataType : DataType) {k : ℕ} (hk : k < n) :
    (instNew ir type dataType n).1.slot ⟨ir.instCount, k⟩ ≠ none := by
  rw [slot_instNew, if_pos rfl, if_pos hk]
  exact Option.some_ne_none _

theorem DefUse.newAssignVar (h : DefUse ir) (rId : ℕ) {value : Value} (hv : ir.HasValue value) :
    ∃ ir', useStep ir (.newAssignVar rId value) = some ir' ∧ Creates ir ir' := by
  have hnew := h.inst_new (.assignVar rId) .void (n := 1) (by simp)
  obtain ⟨ir', hset, hcreates, -⟩ := hnew.setUse (new_slots _ _ (Nat.lt_succ_self 0)) hv
  refine ⟨ir', Option.map_eq_some_iff.mpr ⟨(ir', ir.instCount), ?_, rfl⟩, hcreates⟩
  exact Option.bind_eq_some_iff.mpr ⟨ir', hset, rfl⟩

theorem DefUse.newJump (h : DefUse ir) {block : ℕ} (hv : ir.HasValue (.block block)) :
    ∃ ir', useStep ir (.newJump block) = some ir' ∧ Creates ir ir' := by
  have hnew := h.inst_new .jump .void (n := 1) (by simp)
  obtain ⟨ir', hset, hcreates, -⟩ := hnew.setUse (new_slots _ _ (Nat.lt_succ_self 0)) hv
  refine ⟨ir', Option.map_eq_some_iff.mpr ⟨(ir', ir.instCount), ?_, rfl⟩, hcreates⟩
  exact Option.bind_eq_some_iff.mpr ⟨ir', hset, rfl⟩

theorem DefUse.newBinary (h : DefUse ir) (op : BinaryOps) {a b : Value} (ha : ir.HasValue a)
    (hb : ir.HasValue b) (htype : ir.dataType a = ir.dataType b) :
    ∃ ir', useStep ir (.newBinary op a b) = some ir' ∧ Creates ir ir' := by
  have hnew := h.inst_new (.binary op) (ir.dataType a) (n := 2) (by simp)
  obtain ⟨ir₁, hset₁, hcreates₁, hnone₁⟩ := hnew.setUse (new_slots _ _ Nat.zero_lt_two) ha
  obtain ⟨ir₂, hset₂, hcreates₂, -⟩ := hcreates₁.setUse (k := 1)
    (fun hnone => new_slots _ _ Nat.one_lt_two ((hnone₁ _).mp hnone)) hb
  refine ⟨ir₂, Option.map_eq_some_iff.mpr ⟨(ir₂, ir.instCount), ?_, rfl⟩, hcreates₂⟩
  apply Option.bind_eq_some_iff.mpr
  refine ⟨(), if_pos htype, ?_⟩
  apply Option.bind_eq_some_iff.mpr
  refine ⟨ir₁, hset₁, ?_⟩
  exact Option.bind_eq_some_iff.mpr ⟨ir₂, hset₂, rfl⟩

theorem DefUse.newJumpCond (h : DefUse ir) {a b : ℕ} {cond : Value} (ha : ir.HasValue (.block a))
    (hb : ir.HasValue (.block b)) (hc : ir.HasValue cond) :
    ∃ ir', useStep ir (.newJumpCond a b cond) = some ir' ∧ Creates ir ir' := by
  have hnew := h.inst_new .jumpCond .void (n := 3) (by simp)
  obtain ⟨ir₁, hset₁, hcreates₁, hnone₁⟩ := hnew.setUse (k := 0) (new_slots _ _ (by decide)) ha
  obtain ⟨ir₂, hset₂, hcreates₂, hnone₂⟩ := hcreates₁.setUse (k := 1)
    (fun hnone => new_slots _ _ (by decide) ((hnone₁ _).mp hnone)) hb
  obtain ⟨ir₃, hset₃, hcreates₃, -⟩ := hcreates₂.setUse (k := 2)
    (fun hnone => new_slots _ _ (by decide) ((hnone₁ _).mp ((hnone₂ _).mp hnone))) hc
  refine ⟨ir₃, Option.map_eq_some_iff.mpr ⟨(ir₃, ir.instCount), ?_, rfl⟩, hcreates₃⟩
  apply Option.bind_eq_some_iff.mpr
  refine ⟨ir₁, hset₁, ?_⟩
  apply Option.bind_eq_some_iff.mpr
  refine ⟨ir₂, hset₂, ?_⟩
  exact Option.bind_eq_some_iff.mpr ⟨ir₃, hset₃, rfl⟩

/-! ## Changing objects -/

/-- The replacement gets the uses in their order. -/
theorem foldl_replaceUse_uses {value replacement : Value} (hne : replacement ≠ value)
    (l : List Use) (ir : Ir) : (l.foldl (replaceUse value replacement) ir).uses replacement =
      ir.uses replacement ++ l := by
  induction l generalizing ir with
  | nil => rw [List.foldl_nil, List.append_nil]
  | cons u l ih =>
      have hone : (replaceUse value replacement ir u).uses replacement =
          ir.uses replacement ++ [u] := by
        show Function.update (Function.update ir.uses value _) replacement
          (Function.update ir.uses value _ replacement ++ [u]) replacement = _
        rw [Function.update_self, Function.update_of_ne hne]
      rw [List.foldl_cons, ih, hone, List.append_assoc, List.singleton_append]

/-- **`value_replaceAllUses`** moves all uses. -/
theorem DefUse.replaceAllUses (h : DefUse ir) {value replacement : Value}
    (hr : ir.HasValue replacement) (hne : replacement ≠ value) :
    Creates ir (valueReplaceAllUses ir value replacement) ∧
      (UseOp.replaceAllUses value replacement).Effect ir
        (valueReplaceAllUses ir value replacement) := by
  obtain ⟨hlists, honly, hslot⟩ := foldl_replaceUse_spec (Ne.symm hne) (ir.uses value) ir h.uses
    (fun u hu => (h.uses.mem value u).mp hu) (h.uses.nodup value)
  have hmem : ∀ u, u ∈ ir.uses value ↔ ir.slot u = some (some value) := fun u =>
    (h.uses.mem value u).trans Ir.operand_eq_some
  have hnone : ∀ u, (valueReplaceAllUses ir value replacement).slot u = none ↔ ir.slot u = none := by
    intro u
    rw [show (valueReplaceAllUses ir value replacement).slot u = _ from hslot u]
    split
    · rename_i hu
      rw [(hmem u).mp hu]
      simp
    · rfl
  refine ⟨⟨⟨hlists, fun u hu => ?_, fun u w hw => ?_⟩, fun v hv => hv.congr honly,
    phiSlots_eq honly hnone⟩, ?_, ?_⟩
  · rw [show (valueReplaceAllUses ir value replacement).instCount = _ from honly.instCount] at hu
    exact (hnone u).mpr (h.fresh u hu)
  · rw [show (valueReplaceAllUses ir value replacement).slot u = _ from hslot u] at hw
    split at hw
    · obtain rfl := Option.some.inj (Option.some.inj hw)
      exact hr.congr honly
    · exact (h.value u w hw).congr honly
  · -- no operand has the value any more
    apply List.eq_nil_iff_forall_not_mem.mpr
    intro u hu
    have hw := Ir.operand_eq_some.mp ((hlists.mem value u).mp hu)
    rw [hslot] at hw
    split at hw
    · exact hne (Option.some.inj (Option.some.inj hw))
    · rename_i hu'
      exact hu' ((hmem u).mpr hw)
  · exact foldl_replaceUse_uses hne (ir.uses value) ir

/-- **`inst_phi_insertValue`** adds a pair that is not there. -/
theorem DefUse.phiInsertValue (h : DefUse ir) {phi block : ℕ} {value : Value}
    (hphi : ir.HasValue (.inst phi)) (htype : (ir.insts phi).type = .phi)
    (hblock : ir.HasValue (.block block)) (hv : ir.HasValue value) :
    ∃ ir', useStep ir (.phiInsertValue phi block value) = some ir' ∧ DefUse ir' ∧
      (UseOp.phiInsertValue phi block value).Effect ir ir' ∧
      ∀ i, ir'.phiSlots i = if i = phi ∧ phiHasPair block value (ir.insts phi).uses = false
        then ir.phiSlots i + 2 else ir.phiSlots i := by
  obtain ⟨ir', hinsert, hlists, honly, huses⟩ := instPhiInsertValue_spec h.uses phi block value
  have hslot : ∀ u, ir'.slot u = (if u.inst = phi ∧ phiHasPair block value (ir.insts phi).uses = false
      then (ir.insts u.inst).uses ++ [some (.block block), some value]
      else (ir.insts u.inst).uses)[u.slot]? := fun u => congrArg (·[u.slot]?) (huses u.inst)
  refine ⟨ir', hinsert, ⟨hlists, fun u hu => ?_, fun u w hw => ?_⟩, ?_, fun i => ?_⟩
  · rw [honly.instCount] at hu
    have hne : u.inst ≠ phi := by
      rintro rfl
      exact absurd hphi (Nat.not_lt_of_le hu)
    rw [hslot, if_neg fun hc => hne hc.1]
    exact h.fresh u hu
  · have hcases : some w ∈ (ir.insts u.inst).uses ∨ w = .block block ∨ w = value := by
      rw [hslot] at hw
      split at hw
      · rcases List.mem_append.mp (List.mem_of_getElem? hw) with hold | hnew
        · exact .inl hold
        · simp only [List.mem_cons, Option.some.injEq, List.not_mem_nil, or_false] at hnew
          exact .inr hnew
      · exact .inl (List.mem_of_getElem? hw)
    rcases hcases with hold | rfl | rfl
    · obtain ⟨k, hk⟩ := List.mem_iff_getElem?.mp hold
      exact (h.value ⟨u.inst, k⟩ w hk).congr honly
    · exact hblock.congr honly
    · exact hv.congr honly
  · show (ir'.insts phi).uses = _
    rw [huses]
    cases phiHasPair block value (ir.insts phi).uses <;> simp
  · have htype' : (ir'.insts i).type = (ir.insts i).type := by rw [honly.insts i]
    unfold Ir.phiSlots
    rw [htype', huses]
    by_cases hc : i = phi ∧ phiHasPair block value (ir.insts phi).uses = false
    · rw [if_pos hc, if_pos hc, hc.1, if_pos htype, if_pos htype, List.length_append]
      rfl
    · rw [if_neg hc, if_neg hc]

end Chains

/-! ## Runs -/

/-- What a call that is allowed does. -/
theorem DefUse.step {ir : Ir} (h : DefUse ir) {op : UseOp} (hallowed : op.Allowed ir) :
    ∃ ir', useStep ir op = some ir' ∧ DefUse ir' ∧ op.Effect ir ir' ∧
      (PhisInside ir → (PhisInside ir' ↔ op.HasRoom ir)) := by
  -- a call that leaves the phis as they are
  have hsame : ∀ {ir' : Ir}, Creates ir ir' → (PhisInside ir → (PhisInside ir' ↔ True)) := by
    intro ir' hcreates hinside
    rw [phisInside_iff] at hinside ⊢
    refine ⟨fun _ => trivial, fun _ i => ?_⟩
    rw [hcreates.phis i]
    exact hinside i
  cases op with
  | constantValue value =>
      have hcreates := h.const_new value
      exact ⟨_, rfl, hcreates.defUse, trivial, hsame hcreates⟩
  | blockNew => exact ⟨_, rfl, h.block_new.defUse, trivial, hsame h.block_new⟩
  | newLoadVar rId type =>
      have hcreates := h.inst_new (.loadVar rId) type (n := 0) fun _ => rfl
      exact ⟨_, rfl, hcreates.defUse, trivial, hsame hcreates⟩
  | newAssignVar rId value =>
      obtain ⟨ir', hstep, hcreates⟩ := h.newAssignVar rId hallowed
      exact ⟨ir', hstep, hcreates.defUse, trivial, hsame hcreates⟩
  | newBinary op a b =>
      obtain ⟨ha, hb, htype⟩ := hallowed
      obtain ⟨ir', hstep, hcreates⟩ := h.newBinary op ha hb htype
      exact ⟨ir', hstep, hcreates.defUse, trivial, hsame hcreates⟩
  | newJump block =>
      obtain ⟨ir', hstep, hcreates⟩ := h.newJump hallowed
      exact ⟨ir', hstep, hcreates.defUse, trivial, hsame hcreates⟩
  | newJumpCond a b cond =>
      obtain ⟨ha, hb, hc⟩ := hallowed
      obtain ⟨ir', hstep, hcreates⟩ := h.newJumpCond ha hb hc
      exact ⟨ir', hstep, hcreates.defUse, trivial, hsame hcreates⟩
  | newPhi type =>
      have hcreates := h.inst_new .phi type (n := 0) fun _ => rfl
      exact ⟨_, rfl, hcreates.defUse, trivial, hsame hcreates⟩
  | setUse inst useOffset value =>
      obtain ⟨hk, hv⟩ := hallowed
      have hslot : ir.slot ⟨inst, useOffset⟩ ≠ none := by
        intro hnone
        exact absurd hk (Nat.not_lt_of_le (List.getElem?_eq_none_iff.mp hnone))
      obtain ⟨ir', hset, hdefUse, honly, hslot'⟩ := h.setUse hslot hv
      refine ⟨ir', hset, hdefUse, ?_, fun hinside => ?_⟩
      · apply Ir.operand_eq_some.mpr
        rw [hslot', if_pos rfl]
      · rw [phisInside_iff] at hinside ⊢
        refine ⟨fun _ => trivial, fun _ i => ?_⟩
        rw [phiSlots_eq honly (fun u => ?_) i]
        · exact hinside i
        · rw [hslot']
          split
          · rename_i hu
            rw [hu]
            simp [hslot]
          · rfl
  | replaceAllUses value replacement =>
      obtain ⟨-, hr, hne⟩ := hallowed
      obtain ⟨hcreates, heffect⟩ := h.replaceAllUses hr hne
      exact ⟨_, rfl, hcreates.defUse, heffect, hsame hcreates⟩
  | phiInsertValue phi block value =>
      obtain ⟨hphi, htype, hblock, hv⟩ := hallowed
      obtain ⟨ir', hstep, hdefUse, heffect, hslots⟩ := h.phiInsertValue hphi htype hblock hv
      refine ⟨ir', hstep, hdefUse, heffect, fun hinside => ?_⟩
      rw [phisInside_iff] at hinside ⊢
      have hlength : ir.phiSlots phi = (ir.insts phi).uses.length := if_pos htype
      show _ ↔ phiHasPair block value (ir.insts phi).uses = true ∨ _
      cases hpair : phiHasPair block value (ir.insts phi).uses with
      | true =>
          refine ⟨fun _ => .inl rfl, fun _ i => ?_⟩
          rw [hslots, if_neg (by simp [hpair])]
          exact hinside i
      | false =>
          rw [← hlength]
          constructor
          · intro hinside'
            have hroom := hinside' phi
            rw [hslots, if_pos ⟨rfl, hpair⟩] at hroom
            exact .inr hroom
          · intro hroom i
            rw [hslots]
            split
            · rename_i hc
              rw [hc.1]
              exact hroom.resolve_left Bool.false_ne_true
            · exact hinside i

theorem defUse_irContextInit : DefUse irContextInit where
  uses := ⟨fun v u => ⟨fun h => absurd h List.not_mem_nil, fun h => by cases h⟩,
    fun _ => List.nodup_nil⟩
  fresh _ _ := rfl
  value _ _ h := by cases h

/-- **Def-use chains stay consistent exactly while no phi gets a seventeenth pair**, along
every run of calls. -/
theorem useRun_consistent_iff (ops : List UseOp)
    (hallowed : AllSteps useStep (fun ir op => op.Allowed ir) irContextInit ops) :
    AllSteps useStep (fun ir op => op.Consistent ir) irContextInit ops ↔
      AllSteps useStep (fun ir op => op.HasRoom ir) irContextInit ops := by
  have hinside : PhisInside irContextInit := by
    intro i htype
    cases htype
  refine allSteps_iff_of_inv (I := fun ir => DefUse ir ∧ PhisInside ir) ?_ ?_ _ _
    ⟨defUse_irContextInit, hinside⟩ hallowed
  · rintro ir op ⟨h, hin⟩ hop
    obtain ⟨ir', hstep, hdefUse, heffect, hroom⟩ := h.step hop
    rw [← hroom hin]
    constructor
    · rintro ⟨ir'', hstep', -, -, hinside', -⟩
      obtain rfl := Option.some.inj (hstep.symm.trans hstep')
      exact hinside'
    · intro hinside'
      refine ⟨ir', hstep, fun u v hu => ?_, fun v u hu => (hdefUse.uses.mem v u).mp hu, hinside',
        heffect⟩
      refine ⟨List.count_eq_one_of_mem (hdefUse.uses.nodup v) ((hdefUse.uses.mem v u).mpr hu), ?_⟩
      intro w hw hmem
      have hother := (hdefUse.uses.mem w u).mp hmem
      rw [hu] at hother
      exact hw (Option.some.inj hother).symm
  · rintro ir op s' ⟨h, hin⟩ hop ⟨ir'', hstep', -, -, hinside', -⟩ hs'
    obtain ⟨ir', hstep, hdefUse, -, -⟩ := h.step hop
    obtain rfl := Option.some.inj (hstep.symm.trans hs')
    obtain rfl := Option.some.inj (hstep.symm.trans hstep')
    exact ⟨hdefUse, hinside'⟩

/-- The uses of a constant move to another one, and a phi gets a pair twice. -/
theorem useRun_consistent_iff_few :
    let ops := [.constantValue 123, .constantValue 321, .blockNew, .newAssignVar 1 (.const 0),
      .replaceAllUses (.const 0) (.const 1), .newPhi .int64, .phiInsertValue 1 0 (.const 1),
      .phiInsertValue 1 0 (.const 1), .setUse 1 1 (.const 0)]
    AllSteps useStep (fun ir op => op.Consistent ir) irContextInit ops ↔
      AllSteps useStep (fun ir op => op.HasRoom ir) irContextInit ops :=
  useRun_consistent_iff _ (by decide)

/-- Seventeen pairs of a block and a constant for one phi. -/
def manyPairs : List UseOp :=
  [.blockNew, .newPhi .int64] ++ List.replicate 17 (.constantValue 0) ++
    (List.range 17).map fun k => .phiInsertValue 0 0 (.const k)

/-- The last pair is written behind the buffer of the phi. -/
theorem useRun_overruns :
    AllSteps useStep (fun ir op => op.Allowed ir) irContextInit manyPairs ∧
      ¬ AllSteps useStep (fun ir op => op.Consistent ir) irContextInit manyPairs := by
  refine ⟨by decide, fun hall => ?_⟩
  have hlast : (Runs.run useStep irContextInit manyPairs).map
      (fun ir => ((ir.insts 0).type, (ir.insts 0).uses.length)) = some (.phi, 34) := by
    decide
  obtain ⟨ir, hrun, hphi⟩ := Option.map_eq_some_iff.mp hlast
  obtain ⟨htype, hlength⟩ := Prod.mk.inj hphi
  have hinside : PhisInside ir := by
    refine run_invariant_of_allSteps (I := PhisInside) ?_ ?_ hall hrun
    · rintro ir op ir' - ⟨ir'', hstep, -, -, hinside, -⟩ hstep'
      obtain rfl := Option.some.inj (hstep.symm.trans hstep')
      exact hinside
    · intro i hi
      cases hi
  have hslots := phisInside_iff.mp hinside 0
  unfold Ir.phiSlots at hslots
  rw [if_pos htype, hlength] at hslots
  omega
