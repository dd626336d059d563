/-
# Code with labels

Code is emitted by the encoder's functions with labels in it: jumps and calls, a label's value as
an operand, and labels placed at blocks.  Then the offsets of the other labels are set, and all
labels are applied.

`assembled_haltsWith_iff`: the processor that executes the bytes returns what the code returns
when it is read as it was written, with jumps to the places of the labels.
-/
import MCompiler.Codegen
import MCompiler.X86Processor

/-! ## Emitting code with labels -/

/-- A call of a function that emits code. -/
inductive AsmOp where
  | inst (i : EmitCall)
  | jump (kind : ShortJump) (label : ℕ)
  | call (label : ℕ)
  | storeLabel64 (reg : Reg64) (label : ℕ)
  | subLabel64 (reg : Reg64) (label : ℕ)
  /-- `codegen_pushBlock`. -/
  | pushBlock (label : ℕ)
  deriving DecidableEq

/-- Emit code with a field for the label `l`. -/
def CodeBuffer.emitLabel (code : CodeBuffer) (l : ℕ)
    (emit : ℕ → Label → Label × List UInt8) : CodeBuffer :=
  let (label, bytes) := emit code.buffer.length (code.labels l)
  ⟨code.buffer ++ bytes, Function.update code.labels l label⟩

/-- One call. -/
def assembleStep (code : CodeBuffer) : AsmOp → CodeBuffer
  | .inst i => { code with buffer := code.buffer ++ i.emit }
  | .jump kind l => code.emitLabel l kind.emit
  | .call l => code.emitLabel l emitCall
  | .storeLabel64 reg l => code.emitLabel l (emitStoreLabel64 reg)
  | .subLabel64 reg l => code.emitLabel l (emitSubLabel64 reg)
  | .pushBlock l =>
      { code with
        labels := Function.update code.labels l
          (codegenPushBlock code.buffer.length (code.labels l)) }

/-- A sequence of calls, from an empty buffer. -/
def assemble (ops : List AsmOp) : CodeBuffer := ops.foldl assembleStep ⟨[], fun _ => {}⟩

/-- How labels are linked: the offsets that are set afterwards, and the memory location that each
label is applied with, in an order. -/
structure Linking where
  set : List ℕ
  offset : ℕ → UInt64
  order : List ℕ
  memLocation : ℕ → UInt64

/-- The offsets are set, then the labels are applied. -/
def Linking.events (link : Linking) : List LabelEvent :=
  link.set.map (fun l => .setOffset l (link.offset l)) ++
    link.order.map (fun l => .apply l (link.memLocation l))

/-- The code that is executed. -/
def linkedCode (ops : List AsmOp) (link : Linking) : List UInt8 :=
  (labelRun (assemble ops) link.events).buffer

/-! ## Code as it is written -/

/-- The bytes in front of the field of a label, or all bytes where there is none. -/
def AsmOp.head : AsmOp → List UInt8
  | .inst i => i.emit
  | .jump .jump _ => [0xEB]
  | .jump .jumpZero _ => [0x75]
  | .call _ => [0xE8]
  | .storeLabel64 reg _ => emitRex 1 0 0 (boolByte (kReg64Number reg > 7)) ++
      [0xB8 ||| (kReg64Number reg &&& 0b111)]
  | .subLabel64 reg _ => emitRex 1 0 (boolByte (kReg64Number reg > 7)) 0 ++ [0x81] ++
      emitModrm 3 5 (kReg64Number reg &&& 0b111)
  | .pushBlock _ => []

/-- The field of a label, as the arguments of `relocation_emit`. -/
def AsmOp.field : AsmOp → Option (ℕ × RelocType × RelocSize × ℤ)
  | .jump _ l => some (l, .RELATIVE, .INT8, 1)
  | .call l => some (l, .RELATIVE, .INT32, 4)
  | .storeLabel64 _ l => some (l, .ABSOLUTE, .INT64, 0)
  | .subLabel64 _ l => some (l, .ABSOLUTE, .INT32, 0)
  | _ => none

/-- The label of a block. -/
def AsmOp.block : AsmOp → Option ℕ
  | .pushBlock l => some l
  | _ => none

/-- The number of bytes. -/
def AsmOp.size (op : AsmOp) : ℕ :=
  op.head.length + (op.field.map fun f => getRelocSize f.2.2.1).getD 0

/-- Where the code of the operation `i` begins. -/
def codePosition (ops : List AsmOp) (i : ℕ) : ℕ := ((ops.take i).map AsmOp.size).sum

/-- The offset of a label: set afterwards, or that of its block. -/
def Linking.value (link : Linking) (ops : List AsmOp) (l : ℕ) : UInt64 :=
  if l ∈ link.set then link.offset l
  else if .pushBlock l ∈ ops then UInt64.ofNat (codePosition ops (ops.idxOf (.pushBlock l)))
  else 0

/-- The address that a call of a label leads to in code at `memLocation`. -/
def Linking.address (link : Linking) (ops : List AsmOp) (memLocation : UInt64) (l : ℕ) : UInt64 :=
  memLocation + (link.value ops l - link.memLocation l)

/-- One step of the code as it is written, at the operation `x.1`. -/
def asmStep (callee : UInt64 → Processor → Processor) (memLocation : UInt64) (ops : List AsmOp)
    (link : Linking) (x : ℕ × Processor) : Option Control :=
  let p := x.2
  let next := x.1 + 1
  ops[x.1]?.map fun
    | .inst .ret => .returned (MachineInstruction.ret.exec p)
    | .inst i => .running (next, i.instruction.exec p)
    | .jump .jump l => .running (ops.idxOf (.pushBlock l), p)
    | .jump .jumpZero l => .running (if p.zero then next else ops.idxOf (.pushBlock l), p)
    | .call l => .running (next, callee (link.address ops memLocation l) p)
    | .storeLabel64 reg l => .running (next, p.setReg reg (link.value ops l))
    | .subLabel64 reg l =>
        let v := p.regs reg - link.value ops l
        .running (next, { p.setReg reg v with zero := v = 0 })
    | .pushBlock _ => .running (next, p)

/-- How far the operation `i` jumps. -/
def jumpDistance (ops : List AsmOp) (i l : ℕ) : ℤ :=
  codePosition ops (ops.idxOf (.pushBlock l)) - codePosition ops (i + 1)

/-- A word as a number with a sign. -/
def signedWord (v : UInt64) : ℤ := (v.toNat : ℤ).bmod (2 ^ 64)

/-- How far the call at the operation `i` is from its function. -/
def Linking.callDistance (link : Linking) (ops : List AsmOp) (i l : ℕ) : UInt64 :=
  link.value ops l - link.memLocation l - UInt64.ofNat (codePosition ops (i + 1))

/-- When the operation `i` can be linked: its label is applied; a jump goes to a block that is near
enough, whose label is applied with the memory location 0; a call is not too far; and the register
is not one from `R8` on where the encoder drops its high bit. -/
def AsmOp.Links (ops : List AsmOp) (link : Linking) (i : ℕ) : AsmOp → Prop
  | .inst c => c.Plain
  | .jump _ l => l ∈ link.order ∧ .pushBlock l ∈ ops ∧ l ∉ link.set ∧ link.memLocation l = 0 ∧
      -2 ^ 7 ≤ jumpDistance ops i l ∧ jumpDistance ops i l < 2 ^ 7
  | .call l => l ∈ link.order ∧ -2 ^ 31 ≤ signedWord (link.callDistance ops i l) ∧
      signedWord (link.callDistance ops i l) < 2 ^ 31
  | .storeLabel64 _ l => l ∈ link.order
  | .subLabel64 reg l => l ∈ link.order ∧ kReg64Number reg ≤ 7 ∧ (link.value ops l).toNat < 2 ^ 31
  | .pushBlock _ => True

/-- When code can be linked. -/
structure Linkable (ops : List AsmOp) (link : Linking) : Prop where
  small : (ops.map AsmOp.size).sum < 2 ^ 64
  blocks : (ops.filterMap AsmOp.block).Nodup
  each : ∀ x ∈ ops.zipIdx, x.1.Links ops link x.2

instance (c : EmitCall) : Decidable c.Plain := by
  cases c <;> unfold EmitCall.Plain <;> infer_instance

instance (ops : List AsmOp) (link : Linking) (i : ℕ) (op : AsmOp) :
    Decidable (op.Links ops link i) := by
  cases op <;> unfold AsmOp.Links <;> infer_instance

instance (ops : List AsmOp) (link : Linking) : Decidable (Linkable ops link) :=
  decidable_of_iff ((ops.map AsmOp.size).sum < 2 ^ 64 ∧ (ops.filterMap AsmOp.block).Nodup ∧
    ∀ x ∈ ops.zipIdx, x.1.Links ops link x.2)
    ⟨fun ⟨h1, h2, h3⟩ => ⟨h1, h2, h3⟩, fun h => ⟨h.small, h.blocks, h.each⟩⟩

theorem Linkable.links {ops : List AsmOp} {link : Linking} (h : Linkable ops link) {i : ℕ}
    {op : AsmOp} (hop : ops[i]? = some op) : op.Links ops link i :=
  h.each (op, i) (List.mem_zipIdx_iff_getElem?.mpr hop)

/-- Every label with a field is applied. -/
theorem Linkable.applied {ops : List AsmOp} {link : Linking} (h : Linkable ops link) {op : AsmOp}
    (hop : op ∈ ops) {f : ℕ × RelocType × RelocSize × ℤ} (hf : op.field = some f) :
    f.1 ∈ link.order := by
  obtain ⟨i, hi⟩ := List.mem_iff_getElem?.mp hop
  have hlinks := h.links hi
  cases op with
  | jump kind l => cases hf; exact hlinks.1
  | call l => cases hf; exact hlinks.1
  | storeLabel64 reg l => cases hf; exact hlinks
  | subLabel64 reg l => cases hf; exact hlinks.1
  | _ => cases hf

/-! ## The fields of the labels -/

/-- The bytes and the field that an operation emits. -/
def AsmOp.codeOps (op : AsmOp) : List CodeOp :=
  op.head.map .push ++ (op.field.map fun f => .relocation f.1 f.2.1 f.2.2.1 f.2.2.2).toList

/-- Two buffers with the same bytes and the same relocations. -/
structure SameCode (code code' : CodeBuffer) : Prop where
  buffer : code.buffer = code'.buffer
  relocations : ∀ l, (code.labels l).relocations = (code'.labels l).relocations

section Emit

variable {code code' : CodeBuffer}

theorem codeRun_push (code : CodeBuffer) (bs : List UInt8) :
    codeRun code (bs.map .push) = { code with buffer := code.buffer ++ bs } := by
  induction bs generalizing code with
  | nil =>
      rw [List.append_nil]
      rfl
  | cons b bs ih =>
      refine (ih (codeStep code (.push b))).trans ?_
      show (⟨code.buffer ++ [b] ++ bs, code.labels⟩ : CodeBuffer) = _
      rw [List.append_assoc]
      rfl

/-- What the encoder's functions emit for a label. -/
theorem emitLabel_eq (code : CodeBuffer) (head : List UInt8) (l : ℕ) (type : RelocType)
    (size : RelocSize) (bias : ℤ) :
    code.emitLabel l (fun usage label =>
        ((relocationEmit (usage + head.length) label type size bias).1,
          head ++ (relocationEmit (usage + head.length) label type size bias).2)) =
      codeRun code (head.map .push ++ [.relocation l type size bias]) := by
  have hrun := codeRun_push code head
  unfold codeRun at hrun ⊢
  rw [List.foldl_append, hrun, List.foldl_cons, List.foldl_nil]
  unfold codeStep CodeBuffer.emitLabel
  dsimp only
  rw [List.length_append, List.append_assoc]

/-- **An operation other than a block** pushes its bytes and its field. -/
theorem assembleStep_eq (code : CodeBuffer) {op : AsmOp} (h : ∀ l, op ≠ .pushBlock l) :
    assembleStep code op = codeRun code op.codeOps := by
  cases op with
  | inst i =>
      show _ = codeRun code (i.emit.map .push ++ [])
      rw [List.append_nil, codeRun_push]
      rfl
  | jump kind l =>
      cases kind with
      | jump => exact emitLabel_eq code [0xEB] l .RELATIVE .INT8 1
      | jumpZero => exact emitLabel_eq code [0x75] l .RELATIVE .INT8 1
  | call l => exact emitLabel_eq code [0xE8] l .RELATIVE .INT32 4
  | storeLabel64 reg l => exact emitLabel_eq code _ l .ABSOLUTE .INT64 0
  | subLabel64 reg l => exact emitLabel_eq code _ l .ABSOLUTE .INT32 0
  | pushBlock l => exact absurd rfl (h l)

theorem sameCode_codeStep (h : SameCode code code') (op : CodeOp) :
    SameCode (codeStep code op) (codeStep code' op) := by
  cases op with
  | push byte => exact ⟨congrArg (· ++ [byte]) h.buffer, h.relocations⟩
  | relocation l type size bias =>
      refine ⟨congrArg (· ++ List.replicate (getRelocSize size) 0) h.buffer, fun l' => ?_⟩
      show (Function.update code.labels l _ l').relocations =
        (Function.update code'.labels l _ l').relocations
      by_cases hl : l' = l
      · subst hl
        rw [Function.update_self, Function.update_self]
        show _ :: _ = _ :: _
        rw [h.buffer, h.relocations]
      · rw [Function.update_of_ne hl, Function.update_of_ne hl]
        exact h.relocations l'

theorem sameCode_codeRun (h : SameCode code code') (ops : List CodeOp) :
    SameCode (codeRun code ops) (codeRun code' ops) := by
  induction ops generalizing code code' with
  | nil => exact h
  | cons op ops ih => exact ih (sameCode_codeStep h op)

theorem sameCode_assembleStep (h : SameCode code code') (op : AsmOp) :
    SameCode (assembleStep code op) (codeRun code' op.codeOps) := by
  by_cases hblock : ∃ l, op = .pushBlock l
  · obtain ⟨l, rfl⟩ := hblock
    refine ⟨h.buffer, fun l' => ?_⟩
    show (Function.update code.labels l _ l').relocations = _
    by_cases hl : l' = l
    · subst hl
      rw [Function.update_self]
      exact h.relocations l'
    · rw [Function.update_of_ne hl]
      exact h.relocations l'
  · rw [assembleStep_eq code fun l hl => hblock ⟨l, hl⟩]
    exact sameCode_codeRun h op.codeOps

/-- **The bytes and the relocations of assembled code** are those of the operations' fields. -/
theorem sameCode_assemble (h : SameCode code code') (ops : List AsmOp) :
    SameCode (ops.foldl assembleStep code) (codeRun code' (ops.flatMap AsmOp.codeOps)) := by
  induction ops generalizing code code' with
  | nil => exact h
  | cons op ops ih =>
      have hrest := ih (sameCode_assembleStep h op)
      rw [List.flatMap_cons]
      unfold codeRun at hrest ⊢
      rw [List.foldl_append]
      exact hrest

end Emit

/-! ## Filling the fields -/

/-- The code of operations from a position on, with the fields filled. -/
def filledFrom (bytes : CodeField → List UInt8) : ℕ → List CodeOp → List UInt8
  | _, [] => []
  | usage, .push b :: ops => b :: filledFrom bytes (usage + 1) ops
  | usage, .relocation l type size bias :: ops =>
      bytes ⟨l, type, size, bias, usage⟩ ++ filledFrom bytes (usage + getRelocSize size) ops

section Filled

variable {bytes old : CodeField → List UInt8}

theorem filledFrom_append (bytes : CodeField → List UInt8) (usage : ℕ) (ops ops' : List CodeOp) :
    filledFrom bytes usage (ops ++ ops') =
      filledFrom bytes usage ops ++ filledFrom bytes (usage + (ops.map CodeOp.size).sum) ops' := by
  induction ops generalizing usage with
  | nil => rfl
  | cons op ops ih =>
      cases op with
      | push b =>
          rw [List.cons_append, filledFrom, ih, filledFrom, List.map_cons, List.sum_cons,
            List.cons_append]
          show _ = b :: (_ ++ filledFrom bytes (usage + (1 + _)) ops')
          rw [Nat.add_assoc]
      | relocation l type size bias =>
          rw [List.cons_append, filledFrom, ih, filledFrom, List.map_cons, List.sum_cons,
            List.append_assoc]
          show _ = _ ++ (_ ++ filledFrom bytes (usage + (getRelocSize size + _)) ops')
          rw [Nat.add_assoc]

theorem filledFrom_push (bytes : CodeField → List UInt8) (usage : ℕ) (bs : List UInt8) :
    filledFrom bytes usage (bs.map .push) = bs := by
  induction bs generalizing usage with
  | nil => rfl
  | cons b bs ih => rw [List.map_cons, filledFrom, ih]

/-- Emitted fields are zero. -/
theorem codeRun_buffer (code : CodeBuffer) (ops : List CodeOp) :
    (codeRun code ops).buffer = code.buffer ++
      filledFrom (fun f => List.replicate (getRelocSize f.relocation.size) 0)
        code.buffer.length ops := by
  induction ops generalizing code with
  | nil => exact (List.append_nil _).symm
  | cons op ops ih =>
      refine (ih (codeStep code op)).trans ?_
      rw [length_codeStep]
      cases op with
      | push b => exact List.append_assoc _ [b] _
      | relocation l type size bias => exact List.append_assoc ..

/-- **The filled code**: the fields hold their bytes, and the other bytes are those emitted. -/
theorem applied_filledFrom (hbytes : ∀ f, (bytes f).length = getRelocSize f.relocation.size)
    (hold : ∀ f, (old f).length = getRelocSize f.relocation.size) (start : List UInt8)
    (ops : List CodeOp) :
    Applied CodeField.offset bytes (fieldsFrom start.length ops) (fun _ => True)
      (start ++ filledFrom old start.length ops) (start ++ filledFrom bytes start.length ops) := by
  induction ops generalizing start with
  | nil => exact ⟨rfl, fun f hf => (by cases hf), fun _ _ => rfl⟩
  | cons op ops ih =>
      cases op with
      | push b =>
          have hrest := ih (start ++ [b])
          rw [List.length_append, List.append_assoc, List.append_assoc] at hrest
          exact hrest
      | relocation l type size bias =>
          obtain ⟨f, hf⟩ : ∃ f : CodeField, f = ⟨l, type, size, bias, start.length⟩ := ⟨_, rfl⟩
          have hoffset : f.offset = start.length := by rw [hf]; rfl
          have hlen : (bytes f).length = getRelocSize size := by rw [hbytes, hf]
          have hlen' : (old f).length = getRelocSize size := by rw [hold, hf]
          have hrest := ih (start ++ bytes f)
          rw [List.length_append, hlen] at hrest
          rw [fieldsFrom, filledFrom, filledFrom, ← hf, ← List.append_assoc start (bytes f)]
          refine ⟨?_, ?_, ?_⟩
          · have hsame := hrest.length
            simp only [List.length_append] at hsame ⊢
            omega
          · intro g hg _ k hk
            rcases List.mem_cons.mp hg with rfl | hg
            · rw [hoffset, List.append_assoc, List.getElem?_append_right (Nat.le_add_right _ k),
                Nat.add_sub_cancel_left, List.getElem?_append_left hk]
            · exact hrest.inside g hg trivial k hk
          · intro i hi
            have hnot : ¬ (f.offset ≤ i ∧ i < f.offset + (bytes f).length) :=
              hi f List.mem_cons_self trivial
            rw [hrest.outside i fun g hg hdone => hi g (List.mem_cons_of_mem _ hg) hdone,
              List.append_assoc]
            by_cases hlt : i < start.length
            · rw [List.getElem?_append_left hlt, List.getElem?_append_left hlt]
            · rw [List.getElem?_append_right (by omega), List.getElem?_append_right (by omega),
                List.getElem?_append_right (by omega), List.getElem?_append_right (by omega), hlen,
                hlen']

end Filled

/-! ## Linking -/

section Link

/-- Applying labels, each with its memory location. -/
theorem labelRun_apply (code : CodeBuffer) (order : List ℕ) (memLocation : ℕ → UInt64) :
    labelRun code (order.map fun l => .apply l (memLocation l)) =
      order.foldl (fun code l => applyLabel (memLocation l) code l) code :=
  List.foldl_map

/-- Setting offsets. -/
theorem labelRun_setOffset (code : CodeBuffer) (set : List ℕ) (offset : ℕ → UInt64) :
    let code' := labelRun code (set.map fun l => .setOffset l (offset l))
    SameCode code' code ∧ ∀ l, (code'.labels l).offset =
      if l ∈ set then (offset l).toNat else (code.labels l).offset := by
  induction set generalizing code with
  | nil => exact ⟨⟨rfl, fun _ => rfl⟩, fun l => (if_neg List.not_mem_nil).symm⟩
  | cons l set ih =>
      obtain ⟨hsame, hoffset⟩ := ih (labelStep code (.setOffset l (offset l)))
      refine ⟨⟨hsame.buffer, fun l' => (hsame.relocations l').trans ?_⟩, fun l' => ?_⟩
      · show (Function.update code.labels l _ l').relocations = _
        by_cases hl : l' = l
        · subst hl
          rw [Function.update_self]
          rfl
        · rw [Function.update_of_ne hl]
      · refine (hoffset l').trans ?_
        show (if l' ∈ set then _ else (Function.update code.labels l _ l').offset) = _
        by_cases hl : l' = l
        · subst hl
          rw [Function.update_self, if_pos List.mem_cons_self]
          show (if l' ∈ set then (offset l').toNat else (offset l').toNat) = _
          rw [ite_self]
        · rw [Function.update_of_ne hl]
          by_cases hset : l' ∈ set
          · rw [if_pos hset, if_pos (List.mem_cons_of_mem l hset)]
          · rw [if_neg hset, if_neg fun hmem => (List.mem_cons.mp hmem).elim hl hset]

end Link

section Blocks

variable {code : CodeBuffer} {ops : List AsmOp}

/-- The size of an operation is that of what it emits. -/
theorem size_codeOps (op : AsmOp) : (op.codeOps.map CodeOp.size).sum = op.size := by
  have hhead : ∀ bs : List UInt8, ((bs.map CodeOp.push).map CodeOp.size).sum = bs.length := by
    intro bs
    induction bs with
    | nil => rfl
    | cons b bs ih =>
        rw [List.map_cons, List.map_cons, List.sum_cons, ih, List.length_cons]
        exact Nat.add_comm 1 _
  unfold AsmOp.codeOps AsmOp.size
  rw [List.map_append, List.sum_append, hhead]
  cases op.field with
  | none => rfl
  | some f => exact congrArg (op.head.length + ·) (Nat.add_zero _)

theorem length_assembleStep (code : CodeBuffer) (op : AsmOp) :
    (assembleStep code op).buffer.length = code.buffer.length + op.size := by
  have hsame : SameCode (assembleStep code op) (codeRun code op.codeOps) :=
    sameCode_assembleStep ⟨rfl, fun _ => rfl⟩ op
  rw [hsame.buffer, length_codeRun]
  rw [size_codeOps]

theorem codePosition_cons (op : AsmOp) (i : ℕ) :
    codePosition (op :: ops) (i + 1) = op.size + codePosition ops i := by
  unfold codePosition
  rw [List.take_succ_cons, List.map_cons, List.sum_cons]

/-- Operations other than its block leave the offset of a label alone. -/
theorem offset_assembleStep {op : AsmOp} {l : ℕ} (h : op ≠ .pushBlock l) :
    ((assembleStep code op).labels l).offset = (code.labels l).offset := by
  have hemit : ∀ (l' : ℕ) (emit : ℕ → Label → Label × List UInt8),
      (∀ usage label, (emit usage label).1.offset = label.offset) →
      ((code.emitLabel l' emit).labels l).offset = (code.labels l).offset := by
    intro l' emit hoffset
    show (Function.update code.labels l' _ l).offset = _
    by_cases hl : l = l'
    · subst hl
      rw [Function.update_self, hoffset]
    · rw [Function.update_of_ne hl]
  cases op with
  | inst i => rfl
  | jump kind l' =>
      cases kind with
      | jump => exact hemit l' emitJumpRel8 fun _ _ => rfl
      | jumpZero => exact hemit l' emitJumpZeroRel8 fun _ _ => rfl
  | call l' => exact hemit l' emitCall fun _ _ => rfl
  | storeLabel64 reg l' => exact hemit l' (emitStoreLabel64 reg) fun _ _ => rfl
  | subLabel64 reg l' => exact hemit l' (emitSubLabel64 reg) fun _ _ => rfl
  | pushBlock l' =>
      have hl : l ≠ l' := fun hl => h (hl ▸ rfl)
      exact congrArg Label.offset (Function.update_of_ne hl ..)

/-- **The offset of a block** is the position of its code. -/
theorem offset_assemble (hblocks : (ops.filterMap AsmOp.block).Nodup) (l : ℕ) :
    ((ops.foldl assembleStep code).labels l).offset =
      if .pushBlock l ∈ ops then
        (UInt64.ofNat (code.buffer.length + codePosition ops (ops.idxOf (.pushBlock l)))).toNat
      else (code.labels l).offset := by
  induction ops generalizing code with
  | nil => exact (if_neg List.not_mem_nil).symm
  | cons op ops ih =>
      rw [List.foldl_cons]
      by_cases hop : op = .pushBlock l
      · subst hop
        have hblocks' : (l :: ops.filterMap AsmOp.block).Nodup := hblocks
        obtain ⟨hnotin, hblocks'⟩ := List.nodup_cons.mp hblocks'
        have hnot : AsmOp.pushBlock l ∉ ops := fun hmem =>
          hnotin (List.mem_filterMap.mpr ⟨_, hmem, rfl⟩)
        rw [ih hblocks', if_neg hnot, if_pos List.mem_cons_self, List.idxOf_cons_self]
        show (Function.update code.labels l _ l).offset = _
        rw [Function.update_self]
        rfl
      · have hblocks' : (ops.filterMap AsmOp.block).Nodup :=
          hblocks.sublist ((List.sublist_cons_self op ops).filterMap AsmOp.block)
        rw [ih hblocks', length_assembleStep, List.idxOf_cons_ne _ (Ne.symm (Ne.symm hop)),
          codePosition_cons, Nat.add_assoc, offset_assembleStep hop]
        have hiff : (AsmOp.pushBlock l ∈ op :: ops) ↔ AsmOp.pushBlock l ∈ ops := by
          rw [List.mem_cons, or_iff_right (Ne.symm hop)]
        simp only [hiff]

end Blocks

/-- The bytes of a field of linked code. -/
def Linking.fieldBytes (link : Linking) (ops : List AsmOp) (f : CodeField) : List UInt8 :=
  f.bytes (link.value ops) (link.memLocation f.label)

section Linked

variable {ops : List AsmOp} {link : Linking}

/-- The fields are those of the operations. -/
theorem mem_fieldsFrom {usage : ℕ} {f : CodeField}
    (h : f ∈ fieldsFrom usage (ops.flatMap AsmOp.codeOps)) :
    ∃ op ∈ ops, ∃ g, op.field = some g ∧ g.1 = f.label := by
  have hmem : ∀ (codeOps : List CodeOp) (usage : ℕ), f ∈ fieldsFrom usage codeOps →
      ∃ type size bias, .relocation f.label type size bias ∈ codeOps := by
    intro codeOps
    induction codeOps with
    | nil => exact fun _ hf => (by cases hf)
    | cons op codeOps ih =>
        intro usage hf
        cases op with
        | push b =>
            obtain ⟨type, size, bias, hop⟩ := ih _ hf
            exact ⟨type, size, bias, List.mem_cons_of_mem _ hop⟩
        | relocation l type size bias =>
            rcases List.mem_cons.mp hf with rfl | hf
            · exact ⟨type, size, bias, List.mem_cons_self⟩
            · obtain ⟨type, size, bias, hop⟩ := ih _ hf
              exact ⟨type, size, bias, List.mem_cons_of_mem _ hop⟩
  obtain ⟨type, size, bias, hop⟩ := hmem _ _ h
  obtain ⟨op, hops, hop⟩ := List.mem_flatMap.mp hop
  rcases List.mem_append.mp hop with hpush | hfield
  · obtain ⟨b, -, hb⟩ := List.mem_map.mp hpush
    cases hb
  · obtain ⟨g, hg, heq⟩ := Option.map_eq_some_iff.mp (Option.mem_toList.mp hfield)
    exact ⟨op, hops, g, hg, (CodeOp.relocation.inj heq).1⟩

/-- **Linked code** is the code of the operations with each field filled. -/
theorem linkedCode_eq (h : Linkable ops link) :
    linkedCode ops link = filledFrom (link.fieldBytes ops) 0 (ops.flatMap AsmOp.codeOps) := by
  let codeOps := ops.flatMap AsmOp.codeOps
  have hsame : SameCode (assemble ops) (codeRun ⟨[], fun _ => {}⟩ codeOps) :=
    sameCode_assemble ⟨rfl, fun _ => rfl⟩ ops
  obtain ⟨hset, hoffset⟩ := labelRun_setOffset (assemble ops) link.set link.offset
  have hapart : (fieldsFrom 0 codeOps).Pairwise
      (Apart CodeField.offset fun f => f.bytes (link.value ops) (link.memLocation f.label)) :=
    fieldsFrom_apart (link.value ops) link.memLocation codeOps 0
  have hlength : (assemble ops).buffer.length = (codeOps.map CodeOp.size).sum := by
    rw [hsame.buffer, length_codeRun]
    exact Nat.zero_add _
  have hfits : ∀ f ∈ fieldsFrom 0 codeOps,
      f.offset + (f.bytes (link.value ops) (link.memLocation f.label)).length ≤
        (assemble ops).buffer.length := by
    intro f hf
    rw [length_bytes, hlength]
    exact (fieldsFrom_bounds hf).2.trans_eq (Nat.zero_add _)
  have hstart : LabelsApplied (link.value ops) link.memLocation (fieldsFrom 0 codeOps)
      (assemble ops).buffer (fun _ => False)
      (labelRun (assemble ops) (link.set.map fun l => .setOffset l (link.offset l))) := by
    refine ⟨hset.buffer ▸ Applied.start _ _ _ _, fun l => (hoffset l).trans ?_, fun l hl => hl.elim,
      fun l _ r => ?_⟩
    · unfold Linking.value
      split_ifs with hl hblock
      · rfl
      · refine (offset_assemble h.blocks l).trans ((if_pos hblock).trans ?_)
        exact congrArg (fun n => (UInt64.ofNat n).toNat) (Nat.zero_add _)
      · exact (offset_assemble h.blocks l).trans (if_neg hblock)
    · rw [hset.relocations, hsame.relocations, codeRun_relocations]
      exact or_iff_right List.not_mem_nil
  have hlinked := hstart.run hapart hfits link.order
  have hrun : linkedCode ops link = (labelRun (labelRun (assemble ops)
      (link.set.map fun l => .setOffset l (link.offset l)))
      (link.order.map fun l => .apply l (link.memLocation l))).buffer :=
    congrArg CodeBuffer.buffer List.foldl_append
  rw [hrun, labelRun_apply]
  -- all fields have been applied
  refine Applied.unique (hlinked.buffer.congr fun f hf => ⟨fun _ => trivial, fun _ => ?_⟩) ?_
  · obtain ⟨op, hop, g, hg, hlabel⟩ := mem_fieldsFrom hf
    exact .inr (hlabel ▸ h.applied hop hg)
  · rw [hsame.buffer, codeRun_buffer]
    exact applied_filledFrom (fun f => length_bytes ..) (fun f => List.length_replicate ..) [] codeOps

/-! ## Where the code of an operation lies -/

theorem length_filledFrom {bytes : CodeField → List UInt8}
    (hbytes : ∀ f, (bytes f).length = getRelocSize f.relocation.size) (usage : ℕ)
    (codeOps : List CodeOp) :
    (filledFrom bytes usage codeOps).length = (codeOps.map CodeOp.size).sum := by
  induction codeOps generalizing usage with
  | nil => rfl
  | cons op codeOps ih =>
      cases op with
      | push b =>
          rw [filledFrom, List.length_cons, ih]
          exact Nat.add_comm _ 1
      | relocation l type size bias =>
          rw [filledFrom, List.length_append, ih, hbytes]
          rfl

theorem length_fieldBytes (f : CodeField) :
    (link.fieldBytes ops f).length = getRelocSize f.relocation.size := length_bytes ..

theorem sum_codeOps (ops : List AsmOp) :
    ((ops.flatMap AsmOp.codeOps).map CodeOp.size).sum = (ops.map AsmOp.size).sum := by
  induction ops with
  | nil => rfl
  | cons op ops ih =>
      rw [List.flatMap_cons, List.map_append, List.sum_append, ih, size_codeOps, List.map_cons,
        List.sum_cons]

theorem codePosition_succ {i : ℕ} {op : AsmOp} (hop : ops[i]? = some op) :
    codePosition ops (i + 1) = codePosition ops i + op.size := by
  unfold codePosition
  rw [List.take_add_one, hop, List.map_append, List.sum_append]
  exact congrArg (_ + ·) (Nat.add_zero _)

theorem codePosition_le (i : ℕ) : codePosition ops i ≤ (ops.map AsmOp.size).sum := by
  unfold codePosition
  conv_rhs => rw [← List.take_append_drop i ops, List.map_append, List.sum_append]
  exact Nat.le_add_right ..

/-- **The code of an operation** in linked code. -/
theorem linkedCode_split (h : Linkable ops link) {i : ℕ} {op : AsmOp} (hop : ops[i]? = some op) :
    ∃ pre post, linkedCode ops link =
        pre ++ (filledFrom (link.fieldBytes ops) (codePosition ops i) op.codeOps ++ post) ∧
      pre.length = codePosition ops i := by
  obtain ⟨hi, hget⟩ := List.getElem?_eq_some_iff.mp hop
  have hflat : ops.flatMap AsmOp.codeOps = (ops.take i).flatMap AsmOp.codeOps ++
      (op.codeOps ++ (ops.drop (i + 1)).flatMap AsmOp.codeOps) := by
    rw [← List.flatMap_cons, ← List.flatMap_append, ← hget, List.getElem_cons_drop hi,
      List.take_append_drop]
  have hbefore : 0 + (((ops.take i).flatMap AsmOp.codeOps).map CodeOp.size).sum =
      codePosition ops i := by
    rw [sum_codeOps, Nat.zero_add]
    rfl
  refine ⟨filledFrom (link.fieldBytes ops) 0 ((ops.take i).flatMap AsmOp.codeOps),
    filledFrom (link.fieldBytes ops) (codePosition ops i + (op.codeOps.map CodeOp.size).sum)
      ((ops.drop (i + 1)).flatMap AsmOp.codeOps), ?_, ?_⟩
  · rw [linkedCode_eq h, hflat, filledFrom_append, filledFrom_append, hbefore]
  · rw [length_filledFrom length_fieldBytes, ← hbefore, Nat.zero_add]

theorem length_linkedCode (h : Linkable ops link) :
    (linkedCode ops link).length = (ops.map AsmOp.size).sum := by
  rw [linkedCode_eq h, length_filledFrom length_fieldBytes, sum_codeOps]

/-- The bytes of an operation: those in front of its field, and the field. -/
theorem filledFrom_codeOps (bytes : CodeField → List UInt8) (usage : ℕ) (op : AsmOp) :
    filledFrom bytes usage op.codeOps = op.head ++ (op.field.map fun f =>
      bytes ⟨f.1, f.2.1, f.2.2.1, f.2.2.2, usage + op.head.length⟩).getD [] := by
  have hhead : ((op.head.map CodeOp.push).map CodeOp.size).sum = op.head.length := by
    have hlength := length_codeRun ⟨[], fun _ => {}⟩ (op.head.map .push)
    rw [codeRun_push] at hlength
    exact (hlength.trans (Nat.zero_add _)).symm
  unfold AsmOp.codeOps
  rw [filledFrom_append, filledFrom_push, hhead]
  cases op.field with
  | none => rfl
  | some f => exact congrArg (op.head ++ ·) (List.append_nil _)

end Linked

/-! ## What the fields hold -/

/-- A word between `-2 ^ 31` and `2 ^ 31` is extended from its low 32 bits. -/
theorem extendImm_ofNat {d : UInt64} (hlo : -2 ^ 31 ≤ signedWord d) (hhi : signedWord d < 2 ^ 31)
    {n : ℕ} (hn : (n : ℤ) = (d.toNat : ℤ) % 2 ^ 32) : extendImm (UInt32.ofNat n) = d := by
  have hlt := d.toNat_lt
  have hlow : ((UInt32.ofNat n).toNat : ℤ) = (d.toNat : ℤ) % 2 ^ 32 := by
    rw [UInt32.toNat_ofNat', Int.natCast_mod, hn]
    exact Int.emod_emod_of_dvd _ (dvd_refl _)
  have hsigned : (((UInt32.ofNat n).toNat : ℤ)).bmod (2 ^ 32) = signedWord d := by
    rw [hlow]
    unfold signedWord at hlo hhi ⊢
    rw [Int.bmod_def] at hlo hhi ⊢
    rw [Int.bmod_def]
    split_ifs at hlo hhi ⊢ <;> omega
  have hmod : signedWord d % 2 ^ 64 = d.toNat := by
    unfold signedWord
    rw [Int.bmod_def]
    split_ifs <;> omega
  unfold extendImm UInt64.ofInt
  rw [hsigned, hmod, Int.toNat_natCast, UInt64.ofNat_toNat]

section Fields

variable {ops : List AsmOp} {link : Linking} {i l : ℕ}

theorem value_block (h : Linkable ops link) (hblock : .pushBlock l ∈ ops) (hset : l ∉ link.set) :
    (link.value ops l).toNat = codePosition ops (ops.idxOf (.pushBlock l)) := by
  unfold Linking.value
  rw [if_neg hset, if_pos hblock, UInt64.toNat_ofNat', Nat.mod_eq_of_lt]
  exact (codePosition_le _).trans_lt h.small

/-- The byte of a short jump is its distance. -/
theorem jump_field (h : Linkable ops link) {kind : ShortJump}
    (hop : ops[i]? = some (.jump kind l)) : ∃ byte,
      link.fieldBytes ops ⟨l, .RELATIVE, .INT8, 1, codePosition ops i + 1⟩ = [byte] ∧
      signedByte byte = jumpDistance ops i l := by
  obtain ⟨-, hblock, hset, hmem, hlo, hhi⟩ := h.links hop
  have hlength : (link.fieldBytes ops
      ⟨l, .RELATIVE, .INT8, 1, codePosition ops i + 1⟩).length = 1 := length_fieldBytes _
  obtain ⟨byte, hbyte⟩ := List.length_eq_one_iff.mp hlength
  refine ⟨byte, hbyte, (signedByte_eq_iff ?_).mpr ⟨hlo, hhi⟩⟩
  have hvalue := ofBytesLE_bytes (link.value ops) (link.memLocation l)
    ⟨l, .RELATIVE, .INT8, 1, codePosition ops i + 1⟩
  have hnum : ofBytesLE (link.fieldBytes ops ⟨l, .RELATIVE, .INT8, 1, codePosition ops i + 1⟩) =
      byte.toNat := by
    rw [hbyte]
    exact Nat.add_zero _
  unfold Linking.fieldBytes at hnum
  rw [hnum] at hvalue
  rw [hvalue]
  have hsize : (AsmOp.jump kind l).size = 2 := by cases kind <;> rfl
  show ((link.value ops l).toNat - ((link.memLocation l).toNat + (codePosition ops i + 1 : ℕ) + 1) :
    ℤ) % 2 ^ 8 = _
  unfold jumpDistance
  rw [value_block h hblock hset, hmem, codePosition_succ hop, hsize]
  congr 1
  show (_ - ((0 : ℕ) + _ + 1) : ℤ) = _
  omega

/-- The field of a call leads to the address of its label. -/
theorem call_field (h : Linkable ops link) (hop : ops[i]? = some (.call l))
    (memLocation : UInt64) :
    callTarget memLocation (codePosition ops (i + 1))
        (link.fieldBytes ops ⟨l, .RELATIVE, .INT32, 4, codePosition ops i + 1⟩) =
      link.address ops memLocation l := by
  obtain ⟨-, hlo, hhi⟩ := h.links hop
  have hvalue := ofBytesLE_bytes (link.value ops) (link.memLocation l)
    ⟨l, .RELATIVE, .INT32, 4, codePosition ops i + 1⟩
  have hnext : codePosition ops (i + 1) = codePosition ops i + 5 := codePosition_succ hop
  have hsmall := (codePosition_le (i + 1)).trans_lt h.small
  have hfield : (ofBytesLE (link.fieldBytes ops
      ⟨l, .RELATIVE, .INT32, 4, codePosition ops i + 1⟩) : ℤ) =
      ((link.callDistance ops i l).toNat : ℤ) % 2 ^ 32 := by
    refine hvalue.trans ?_
    show ((link.value ops l).toNat -
      ((link.memLocation l).toNat + (codePosition ops i + 1 : ℕ) + 4) : ℤ) % 2 ^ 32 = _
    unfold Linking.callDistance
    rw [UInt64.toNat_sub, UInt64.toNat_sub, UInt64.toNat_ofNat', hnext]
    have hv := (link.value ops l).toNat_lt
    have hm := (link.memLocation l).toNat_lt
    omega
  have hextend := extendImm_ofNat hlo hhi hfield
  unfold callTarget
  rw [hextend]
  unfold Linking.callDistance Linking.address
  rw [UInt64.add_assoc, UInt64.add_comm (UInt64.ofNat _), UInt64.sub_add_cancel]

end Fields

/-! ## The processor follows the code -/

/-- An outcome at the position of the operation. -/
def atPosition (ops : List AsmOp) : Control → Control
  | .running x => .running (codePosition ops x.1, x.2)
  | .returned p => .returned p

section Follow

variable {callee : UInt64 → Processor → Processor} {memLocation : UInt64} {ops : List AsmOp}
  {link : Linking} {i : ℕ} {p : Processor}

/-- **What the processor does at an instruction without a label.** -/
theorem follow_inst (h : Linkable ops link) {c : EmitCall} (hop : ops[i]? = some (.inst c)) :
    processorStep callee memLocation (linkedCode ops link) (codePosition ops i, p) =
      (asmStep callee memLocation ops link (i, p)).map (atPosition ops) := by
  obtain ⟨pre, post, hcode, hpre⟩ := linkedCode_split h hop
  have hbytes : filledFrom (link.fieldBytes ops) (codePosition ops i) (AsmOp.inst c).codeOps =
      c.emit := (filledFrom_codeOps ..).trans (List.append_nil _)
  have hnext : (pre ++ c.emit).length = codePosition ops (i + 1) := by
    rw [List.length_append, hpre, codePosition_succ hop]
    rfl
  have hplain := (seen_eq_instruction_iff c).mpr (h.links hop)
  have hasm : asmStep callee memLocation ops link (i, p) = some (if c = .ret
      then .returned (MachineInstruction.ret.exec p) else .running (i + 1, c.instruction.exec p)) := by
    unfold asmStep
    dsimp only
    rw [hop]
    cases c <;> rfl
  rw [hcode, hbytes, ← hpre, hasm]
  by_cases hret : c = .ret
  · subst hret
    exact processorStep_ret .ret rfl
  · have hseen : c.seen ≠ .ret := by
      rw [hplain]
      cases c <;> first | exact MachineInstruction.noConfusion | exact absurd rfl hret
    rw [processorStep_emit c hseen, if_neg hret, hnext, hplain]
    rfl

/-- A jump to a block. -/
theorem land_block {l : ℕ} {byte : UInt8} (hbyte : signedByte byte = jumpDistance ops i l) :
    land (codePosition ops (i + 1)) byte p =
      some (.running (codePosition ops (ops.idxOf (.pushBlock l)), p)) := by
  have htarget : (codePosition ops (i + 1) : ℤ) + jumpDistance ops i l =
      codePosition ops (ops.idxOf (.pushBlock l)) := by
    unfold jumpDistance
    omega
  unfold land
  dsimp only
  rw [hbyte, htarget, if_pos (Int.natCast_nonneg _), Int.toNat_natCast]

/-- **What the processor does at a short jump.** -/
theorem follow_jump (h : Linkable ops link) {kind : ShortJump} {l : ℕ}
    (hop : ops[i]? = some (.jump kind l)) :
    processorStep callee memLocation (linkedCode ops link) (codePosition ops i, p) =
      (asmStep callee memLocation ops link (i, p)).map (atPosition ops) := by
  obtain ⟨pre, post, hcode, hpre⟩ := linkedCode_split h hop
  obtain ⟨byte, hfield, hbyte⟩ := jump_field h hop
  have hland : land (codePosition ops (i + 1)) byte p = _ := land_block hbyte
  rw [hcode, filledFrom_codeOps]
  unfold asmStep
  dsimp only
  rw [hop]
  cases kind with
  | jump =>
      have hnext : (pre ++ [0xEB, byte]).length = codePosition ops (i + 1) := by
        rw [List.length_append, hpre, codePosition_succ hop]
        rfl
      show processorStep callee memLocation (pre ++ ([0xEB] ++ link.fieldBytes ops
        ⟨l, .RELATIVE, .INT8, 1, codePosition ops i + 1⟩ ++ post)) _ = _
      rw [hfield, ← hpre]
      refine (processorStep_jump byte).trans ?_
      rw [hnext, hland]
      rfl
  | jumpZero =>
      have hnext : (pre ++ [0x75, byte]).length = codePosition ops (i + 1) := by
        rw [List.length_append, hpre, codePosition_succ hop]
        rfl
      show processorStep callee memLocation (pre ++ ([0x75] ++ link.fieldBytes ops
        ⟨l, .RELATIVE, .INT8, 1, codePosition ops i + 1⟩ ++ post)) _ = _
      rw [hfield, ← hpre]
      refine (processorStep_jumpZero byte).trans ?_
      rw [hnext, hland]
      cases p.zero <;> rfl

/-- **What the processor does at a call.** -/
theorem follow_call (h : Linkable ops link) {l : ℕ} (hop : ops[i]? = some (.call l)) :
    processorStep callee memLocation (linkedCode ops link) (codePosition ops i, p) =
      (asmStep callee memLocation ops link (i, p)).map (atPosition ops) := by
  obtain ⟨pre, post, hcode, hpre⟩ := linkedCode_split h hop
  have hlength : (link.fieldBytes ops
      ⟨l, .RELATIVE, .INT32, 4, codePosition ops i + 1⟩).length = 4 := length_fieldBytes _
  have hnext : (pre ++ 0xE8 :: link.fieldBytes ops
      ⟨l, .RELATIVE, .INT32, 4, codePosition ops i + 1⟩).length = codePosition ops (i + 1) := by
    rw [List.length_append, hpre, codePosition_succ hop, List.length_cons, hlength]
    rfl
  have htarget := call_field h hop memLocation
  rw [hcode, filledFrom_codeOps]
  unfold asmStep
  dsimp only
  rw [hop]
  show processorStep callee memLocation (pre ++ (0xE8 :: link.fieldBytes ops
    ⟨l, .RELATIVE, .INT32, 4, codePosition ops i + 1⟩ ++ post)) _ = _
  rw [← hpre, processorStep_call (hpre ▸ hlength), hpre, hnext, htarget]
  rfl

/-- The code of an instruction whose operand is the value of a label. -/
theorem storeLabel_bytes (reg : Reg64) (l : ℕ) :
    filledFrom (link.fieldBytes ops) (codePosition ops i) (AsmOp.storeLabel64 reg l).codeOps =
      (EmitCall.storeConst64 reg (link.value ops l)).emit := by
  rw [filledFrom_codeOps]
  show _ = emitStoreConst64 reg (link.value ops l)
  unfold emitStoreConst64
  show _ ++ bytesLE 8 ((link.value ops l).toNat % 2 ^ 64) = _
  rw [Nat.mod_eq_of_lt (link.value ops l).toNat_lt]
  rfl

theorem subLabel_bytes (reg : Reg64) (l : ℕ) :
    filledFrom (link.fieldBytes ops) (codePosition ops i) (AsmOp.subLabel64 reg l).codeOps =
      (EmitCall.subConst64 reg (UInt32.ofNat (link.value ops l).toNat)).emit := by
  rw [filledFrom_codeOps]
  show _ = emitSubConst64 reg (UInt32.ofNat (link.value ops l).toNat)
  unfold emitSubConst64
  rw [UInt32.toNat_ofNat']
  show _ ++ bytesLE 4 ((link.value ops l).toNat % 2 ^ 64 % 2 ^ 32) = _
  rw [Nat.mod_eq_of_lt (link.value ops l).toNat_lt]
  rfl

/-- **What the processor does where a label's value is stored to a register.** -/
theorem follow_storeLabel64 (h : Linkable ops link) {reg : Reg64} {l : ℕ}
    (hop : ops[i]? = some (.storeLabel64 reg l)) :
    processorStep callee memLocation (linkedCode ops link) (codePosition ops i, p) =
      (asmStep callee memLocation ops link (i, p)).map (atPosition ops) := by
  obtain ⟨pre, post, hcode, hpre⟩ := linkedCode_split h hop
  let c := EmitCall.storeConst64 reg (link.value ops l)
  have hnext : (pre ++ c.emit).length = codePosition ops (i + 1) := by
    rw [List.length_append, hpre, codePosition_succ hop, ← size_codeOps,
      ← length_filledFrom length_fieldBytes (codePosition ops i), storeLabel_bytes]
  rw [hcode, storeLabel_bytes, ← hpre, processorStep_emit c MachineInstruction.noConfusion, hnext]
  unfold asmStep
  dsimp only
  rw [hop]
  rfl

/-- **What the processor does where a label's value is subtracted from a register.** -/
theorem follow_subLabel64 (h : Linkable ops link) {reg : Reg64} {l : ℕ}
    (hop : ops[i]? = some (.subLabel64 reg l)) :
    processorStep callee memLocation (linkedCode ops link) (codePosition ops i, p) =
      (asmStep callee memLocation ops link (i, p)).map (atPosition ops) := by
  obtain ⟨pre, post, hcode, hpre⟩ := linkedCode_split h hop
  obtain ⟨-, hreg, hvalue⟩ := h.links hop
  let c := EmitCall.subConst64 reg (UInt32.ofNat (link.value ops l).toNat)
  have hnext : (pre ++ c.emit).length = codePosition ops (i + 1) := by
    rw [List.length_append, hpre, codePosition_succ hop, ← size_codeOps,
      ← length_filledFrom length_fieldBytes (codePosition ops i), subLabel_bytes]
  have hplain : c.seen = c.instruction := (seen_eq_instruction_iff c).mpr hreg
  have himm : extendImm (UInt32.ofNat (link.value ops l).toNat) = link.value ops l := by
    have hsigned : signedWord (link.value ops l) = (link.value ops l).toNat :=
      Int.bmod_eq_of_le (by omega) (by omega)
    exact extendImm_ofNat (by omega) (by omega) (by omega)
  have hseen : c.seen ≠ .ret := by
    rw [hplain]
    exact MachineInstruction.noConfusion
  rw [hcode, subLabel_bytes, ← hpre, processorStep_emit c hseen, hnext, hplain]
  unfold asmStep
  dsimp only
  rw [hop]
  have hexec : c.instruction.exec p =
      let v := p.regs reg - extendImm (UInt32.ofNat (link.value ops l).toNat)
      { p.setReg reg v with zero := v = 0 } := rfl
  rw [hexec, himm]
  rfl

/-- **Linked code and the code as it is written run in lockstep**; only the blocks have no
instruction. -/
theorem asm_lockstep (h : Linkable ops link) (callee : UInt64 → Processor → Processor)
    (memLocation : UInt64) :
    Lockstep (asmStep callee memLocation ops link)
      (processorStep callee memLocation (linkedCode ops link))
      (fun x => (codePosition ops x.1, x.2)) (fun x => ops.length - x.1) := by
  -- an operation that is not a block is an instruction
  have hfollow : ∀ (i : ℕ) (p : Processor) (op : AsmOp), ops[i]? = some op → op.block = none →
      processorStep callee memLocation (linkedCode ops link) (codePosition ops i, p) =
        (asmStep callee memLocation ops link (i, p)).map (atPosition ops) := by
    intro i p op hop hblock
    cases op with
    | inst c => exact follow_inst h hop
    | jump kind l => exact follow_jump h hop
    | call l => exact follow_call h hop
    | storeLabel64 reg l => exact follow_storeLabel64 h hop
    | subLabel64 reg l => exact follow_subLabel64 h hop
    | pushBlock l => cases hblock
  refine ⟨?_, ?_, ?_⟩
  · rintro ⟨i, p⟩ hnone
    have hi : ops.length ≤ i :=
      List.getElem?_eq_none_iff.mp (Option.map_eq_none_iff.mp hnone)
    refine processorStep_end ?_
    rw [length_linkedCode h]
    exact (congrArg (fun l => (l.map AsmOp.size).sum) (List.take_of_length_le hi)).ge
  · rintro ⟨i, p⟩ q hret
    obtain ⟨op, hop, hnext⟩ := Option.map_eq_some_iff.mp hret
    refine (hfollow i p op hop ?_).trans (congrArg (Option.map (atPosition ops)) hret)
    cases op with
    | pushBlock l => cases hnext
    | _ => rfl
  · rintro ⟨i, p⟩ ⟨j, q⟩ hrun
    obtain ⟨op, hop, hnext⟩ := Option.map_eq_some_iff.mp hrun
    have hi : i < ops.length := (List.getElem?_eq_some_iff.mp hop).1
    cases hblock : op.block with
    | none => exact .inl ((hfollow i p op hop hblock).trans
        (congrArg (Option.map (atPosition ops)) hrun))
    | some l =>
        cases op with
        | pushBlock l' =>
            cases hnext
            refine .inr ⟨?_, Nat.sub_succ_lt_self _ _ hi⟩
            show (codePosition ops (i + 1), p) = (codePosition ops i, p)
            rw [codePosition_succ hop]
            rfl
        | _ => cases hblock

end Follow

/-- **Assembling preserves meaning.**  Code is emitted with jumps, calls and label values, its
blocks are placed, offsets of other labels are set, and all labels are applied, in any order.  If
it can be linked, the processor that executes the bytes at `memLocation` returns what the code
returns when it is read as it was written: a jump goes on at the block of its label, and the call
of a label is a call of the function at its address. -/
theorem assembled_haltsWith_iff (ops : List AsmOp) (link : Linking) (h : Linkable ops link)
    (callee : UInt64 → Processor → Processor) (memLocation : UInt64) (p q : Processor) :
    HaltsWith (processorStep callee memLocation (linkedCode ops link)) (0, p) q ↔
      HaltsWith (asmStep callee memLocation ops link) (0, p) q :=
  ((asm_lockstep h callee memLocation).haltsWith_iff (0, p) q).symm

/-- `emit_testFunction`, with the labels `loopBody`, `message` and `putsLabel`. -/
def emitTestFunction : List AsmOp :=
  [.inst (.pushReg .RBP), .inst (.storeReg64 .RSP .RBP), .inst (.subConst64 .RSP 16),
    .inst (.storeConst64 .RAX 10), .inst (.storeRegRBP64 .RAX 0xF8), .pushBlock 0,
    .storeLabel64 .RDI 1, .call 2, .inst (.loadRegRBP64 .RAX 0xF8), .inst (.decReg64 .RAX),
    .inst (.storeRegRBP64 .RAX 0xF8), .inst (.checkZero64 .RAX), .jump .jumpZero 0,
    .inst (.storeReg64 .RBP .RSP), .inst (.popReg .RBP), .inst .ret]

/-- `loopBody` is applied first, then the other two where the code lies. -/
def testLinking : Linking where
  set := [2, 1]
  offset l := if l = 1 then 0x601000 else 0x400800
  order := [0, 2, 1]
  memLocation l := if l = 0 then 0 else 0x7F0000

/-- The loop calls a function ten times and returns. -/
theorem assembled_haltsWith_iff_test :
    ∃ q, HaltsWith (processorStep (fun _ p => p.setReg .RAX 0) 0x7F0000
      (linkedCode emitTestFunction testLinking)) (0, ⟨fun _ => 0x2000, false, fun _ => 0⟩) q := by
  have hrun : (runFor (asmStep (fun _ p => p.setReg .RAX 0) 0x7F0000 emitTestFunction testLinking)
      100 (0, ⟨fun _ => 0x2000, false, fun _ => 0⟩)).isSome := by decide
  obtain ⟨q, hq⟩ := Option.isSome_iff_exists.mp hrun
  exact ⟨q, (assembled_haltsWith_iff emitTestFunction testLinking (by decide) _ _ _ q).mpr
    (haltsWith_of_runFor hq)⟩
