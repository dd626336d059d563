/-
# Executing x86-64 code

The processor executes the instructions that it decodes from the bytes of a piece of code, which
it does not overwrite, and short jumps and calls in it.  What a called function does is a
parameter.  `processorStep_emit` and its companions say what the bytes pushed by the encoder do
where the processor comes to them.
-/
import Mathlib.Logic.Relation
import MCompiler.Lib.ByteMemory
import MCompiler.Lib.Lockstep
import MCompiler.RelocationJumps
import MCompiler.X86Decoder

/-! ## Instructions -/

/-- The registers, the zero flag, and the memory besides the code. -/
structure Processor where
  regs : Reg64 → UInt64
  zero : Bool
  memory : ByteMemory

namespace Processor

/-- The processor with another value in a register. -/
def setReg (p : Processor) (reg : Reg64) (v : UInt64) : Processor :=
  { p with regs := Function.update p.regs reg v }

/-- The address at a base register and a displacement. -/
def address (p : Processor) (base : Reg64) (disp : UInt8) : UInt64 :=
  p.regs base + UInt64.ofInt (signedByte disp)

end Processor

/-- The result of an operation with 64 or 32 bits; the other bits are cleared. -/
def sized (wide : Bool) (v : UInt64) : UInt64 :=
  if wide then v else UInt64.ofNat (v.toNat % 2 ^ 32)

/-- An immediate of 32 bits, extended by its sign. -/
def extendImm (imm : UInt32) : UInt64 := UInt64.ofInt ((imm.toNat : ℤ).bmod (2 ^ 32))

/-- What an instruction does, apart from the return. -/
def MachineInstruction.exec (p : Processor) : MachineInstruction → Processor
  | .movReg wide target source => p.setReg target (sized wide (p.regs source))
  | .store true base disp source =>
      { p with memory := writeWord p.memory (p.address base disp) (p.regs source) }
  | .store false base disp source =>
      { p with memory :=
          writeBytes p.memory (p.address base disp) (bytesLE 4 (p.regs source).toNat) }
  | .load true target base disp => p.setReg target (readWord p.memory (p.address base disp))
  | .load false target base disp =>
      p.setReg target (UInt64.ofNat (ofBytesLE (readBytes p.memory (p.address base disp) 4)))
  | .movImm32 target imm => p.setReg target (UInt64.ofNat imm.toNat)
  | .movImm64 target imm => p.setReg target imm
  | .subImm wide target imm =>
      let v := sized wide (p.regs target - extendImm imm)
      { p.setReg target v with zero := v = 0 }
  | .dec wide target =>
      let v := sized wide (p.regs target - 1)
      { p.setReg target v with zero := v = 0 }
  | .test wide left right => { p with zero := sized wide (p.regs left &&& p.regs right) = 0 }
  | .push source =>
      { p.setReg .RSP (p.regs .RSP - 8) with
        memory := writeWord p.memory (p.regs .RSP - 8) (p.regs source) }
  | .pop target =>
      (p.setReg .RSP (p.regs .RSP + 8)).setReg target (readWord p.memory (p.regs .RSP))
  | .ret => p.setReg .RSP (p.regs .RSP + 8)

/-! ## Code -/

/-- An instruction, or a transfer of control with its displacement. -/
inductive Fetched where
  | inst (i : MachineInstruction)
  | jump (disp : UInt8)
  | jumpNotZero (disp : UInt8)
  | call (disp : UInt32)

/-- The first instruction or transfer of control, and the bytes behind it. -/
def fetch : List UInt8 → Option (Fetched × List UInt8)
  | [] => none
  | op :: bytes =>
      if op = 0xEB then bytes.head?.map fun disp => (.jump disp, bytes.tail)
      else if op = 0x75 then bytes.head?.map fun disp => (.jumpNotZero disp, bytes.tail)
      else if op = 0xE8 then
        (readLE 4 bytes).map fun (disp, bytes) => (.call (UInt32.ofNat disp), bytes)
      else (decodeInstruction (op :: bytes)).map fun (i, bytes) => (.inst i, bytes)

/-- The processor goes on at a position of the code, or is back in the caller. -/
abbrev Control := Next (ℕ × Processor) Processor

/-- A jump to `disp` bytes from the position `next`; it stays in the code. -/
def land (next : ℕ) (disp : UInt8) (p : Processor) : Option Control :=
  let target := (next : ℤ) + signedByte disp
  if 0 ≤ target then some (.running (target.toNat, p)) else none

section Step

variable (callee : UInt64 → Processor → Processor) (memLocation : UInt64) (code : List UInt8)

/-- One step of the processor in code that lies at `memLocation`.  `callee` is what the function
at an address does up to its return. -/
def processorStep (x : ℕ × Processor) : Option Control := do
  let p := x.2
  let (fetched, rest) ← fetch (code.drop x.1)
  let next := code.length - rest.length
  match fetched with
  | .inst .ret => some (.returned (MachineInstruction.ret.exec p))
  | .inst i => some (.running (next, i.exec p))
  | .jump disp => land next disp p
  | .jumpNotZero disp => if p.zero then some (.running (next, p)) else land next disp p
  | .call disp =>
      some (.running (next, callee (memLocation + UInt64.ofNat next + extendImm disp) p))

/-- The processor goes from one position to another. -/
def Proceeds : ℕ × Processor → ℕ × Processor → Prop :=
  Relation.ReflTransGen fun x y =>
    processorStep callee memLocation code x = some (.running y)

end Step

/-! ## The code of the encoder -/

/-- The encoder's instructions begin with another byte than a transfer of control. -/
theorem emit_head (call : EmitCall) : ∃ op bytes, call.emit = op :: bytes ∧
    op ≠ 0xEB ∧ op ≠ 0x75 ∧ op ≠ 0xE8 := by
  have hrex : ∀ r x b : Bool, ∃ op, emitRex 1 (boolByte r) (boolByte x) (boolByte b) = [op] ∧
      op ≠ 0xEB ∧ op ≠ 0x75 ∧ op ≠ 0xE8 := by
    intro r x b
    refine ⟨_, rfl, ?_⟩
    revert r x b
    decide
  cases call with
  | storeReg64 source target =>
      obtain ⟨op, hop, hne⟩ := hrex (kReg64Number source > 7) false (kReg64Number target > 7)
      exact ⟨op, _, congrArg (· ++ [0x89] ++ emitModrm 3 (kReg64Number source &&& 0b111)
        (kReg64Number target &&& 0b111)) hop, hne⟩
  | storeRegRBP64 reg disp => cases reg <;> exact ⟨_, _, rfl, by decide⟩
  | loadRegRBP64 reg disp => cases reg <;> exact ⟨_, _, rfl, by decide⟩
  | loadRegRBP32 reg disp => cases reg <;> exact ⟨_, _, rfl, by decide⟩
  | storeConst32 reg cons => cases reg <;> exact ⟨_, _, rfl, by decide⟩
  | storeConst64 reg cons => cases reg <;> exact ⟨_, _, rfl, by decide⟩
  | subConst64 reg imm => cases reg <;> exact ⟨_, _, rfl, by decide⟩
  | decReg64 reg => cases reg <;> exact ⟨_, _, rfl, by decide⟩
  | checkZero32 reg => cases reg <;> exact ⟨_, _, rfl, by decide⟩
  | checkZero64 reg => cases reg <;> exact ⟨_, _, rfl, by decide⟩
  | pushReg reg => cases reg <;> exact ⟨_, _, rfl, by decide⟩
  | popReg reg => cases reg <;> exact ⟨_, _, rfl, by decide⟩
  | ret => exact ⟨_, _, rfl, by decide⟩

/-- **Fetching an instruction of the encoder.** -/
theorem fetch_emit (call : EmitCall) (rest : List UInt8) :
    fetch (call.emit ++ rest) = some (.inst call.seen, rest) := by
  obtain ⟨op, bytes, hemit, hjump, hjumpZero, hcall⟩ := emit_head call
  have hdecode := decode_emit call rest
  rw [hemit, List.cons_append] at hdecode ⊢
  rw [fetch, if_neg hjump, if_neg hjumpZero, if_neg hcall, hdecode]
  rfl

/-- **Fetching a call.** -/
theorem fetch_call {field : List UInt8} (h : field.length = 4) (rest : List UInt8) :
    fetch (0xE8 :: field ++ rest) =
      some (.call (UInt32.ofNat (ofBytesLE field)), rest) := by
  have hread : readLE 4 (field ++ rest) = some (ofBytesLE field, rest) := by
    rw [readLE, if_pos (by rw [List.length_append]; omega), List.take_left' h, List.drop_left' h]
  rw [List.cons_append, fetch, if_neg (by decide), if_neg (by decide), if_pos rfl, hread]
  rfl

section Step

variable {callee : UInt64 → Processor → Processor} {memLocation : UInt64} {p : Processor}
  {pre bytes post : List UInt8} {f : Fetched}

/-- What is fetched in the middle of the code. -/
theorem fetch_middle (pre : List UInt8) (hfetch : fetch (bytes ++ post) = some (f, post)) :
    fetch ((pre ++ (bytes ++ post)).drop pre.length) = some (f, post) ∧
      (pre ++ (bytes ++ post)).length - post.length = (pre ++ bytes).length := by
  refine ⟨by rw [List.drop_left, hfetch], ?_⟩
  simp only [List.length_append]
  omega

/-- **A step at an instruction of the encoder.** -/
theorem processorStep_emit (call : EmitCall) (hret : call.seen ≠ .ret) :
    processorStep callee memLocation (pre ++ (call.emit ++ post)) (pre.length, p) =
      some (.running ((pre ++ call.emit).length, call.seen.exec p)) := by
  obtain ⟨hfetch, hnext⟩ := fetch_middle pre (fetch_emit call post)
  unfold processorStep
  dsimp only
  rw [hfetch, Option.bind_eq_bind, Option.bind_some]
  dsimp only
  rw [hnext]
  cases hseen : call.seen with
  | ret => exact absurd hseen hret
  | _ => rfl

/-- **A step at a return.** -/
theorem processorStep_ret (call : EmitCall) (hret : call.seen = .ret) :
    processorStep callee memLocation (pre ++ (call.emit ++ post)) (pre.length, p) =
      some (.returned (MachineInstruction.ret.exec p)) := by
  obtain ⟨hfetch, -⟩ := fetch_middle pre (fetch_emit call post)
  unfold processorStep
  dsimp only
  rw [hfetch, Option.bind_eq_bind, Option.bind_some, hret]

/-- **A step at a short jump.** -/
theorem processorStep_jump (disp : UInt8) :
    processorStep callee memLocation (pre ++ ([0xEB, disp] ++ post)) (pre.length, p) =
      land (pre ++ [0xEB, disp]).length disp p := by
  have hfetched : fetch ([0xEB, disp] ++ post) = some (.jump disp, post) := rfl
  obtain ⟨hfetch, hnext⟩ := fetch_middle pre hfetched
  unfold processorStep
  dsimp only
  rw [hfetch, Option.bind_eq_bind, Option.bind_some]
  dsimp only
  rw [hnext]

/-- The jump of `emit_jumpZeroRel8` is taken when the zero flag is clear. -/
theorem processorStep_jumpZero (disp : UInt8) :
    processorStep callee memLocation (pre ++ ([0x75, disp] ++ post)) (pre.length, p) =
      if p.zero then some (.running ((pre ++ [0x75, disp]).length, p))
      else land (pre ++ [0x75, disp]).length disp p := by
  have hfetched : fetch ([0x75, disp] ++ post) = some (.jumpNotZero disp, post) := rfl
  obtain ⟨hfetch, hnext⟩ := fetch_middle pre hfetched
  unfold processorStep
  dsimp only
  rw [hfetch, Option.bind_eq_bind, Option.bind_some]
  dsimp only
  rw [hnext]

/-- Behind the code nothing is executed. -/
theorem processorStep_end {code : List UInt8} {ip : ℕ} (h : code.length ≤ ip) :
    processorStep callee memLocation code (ip, p) = none := by
  unfold processorStep
  dsimp only
  rw [List.drop_eq_nil_of_le h]
  rfl

/-- The address that a call behind `next` bytes leads to. -/
def callTarget (memLocation : UInt64) (next : ℕ) (field : List UInt8) : UInt64 :=
  memLocation + UInt64.ofNat next + extendImm (UInt32.ofNat (ofBytesLE field))

/-- **A step at a call.** -/
theorem processorStep_call {field : List UInt8} (h : field.length = 4) :
    processorStep callee memLocation (pre ++ (0xE8 :: field ++ post)) (pre.length, p) =
      some (.running ((pre ++ 0xE8 :: field).length,
        callee (callTarget memLocation (pre ++ 0xE8 :: field).length field) p)) := by
  have hfetched := fetch_call h post
  obtain ⟨hfetch, hnext⟩ := fetch_middle pre hfetched
  unfold processorStep
  dsimp only
  rw [hfetch, Option.bind_eq_bind, Option.bind_some]
  dsimp only
  rw [hnext]
  rfl

end Step
