/-
# Decoding x86-64 instructions

The decoder follows the encoding rules of the processor: an optional REX prefix, the
opcode, a ModRM byte with the register operand in `reg` (extended by REX.R) and the other
operand in `rm` (extended by REX.B), or the register in the low bits of the opcode
(extended by REX.B), then the displacement and the immediate.  REX.X extends the index of
a SIB byte only.  `decode_emit_iff` : the code of a sequence of calls of the encoder decodes
to these instructions exactly if no 64-bit load and no subtraction has an extended
register; these two set the wrong bit of the prefix.
-/
import MCompiler.X86Assembly

/-! ## Instructions -/

/-- The instructions, with their operands; `wide` is the operand size of 64 bits. -/
inductive MachineInstruction where
  | movReg (wide : Bool) (target source : Reg64)
  | store (wide : Bool) (base : Reg64) (disp : UInt8) (source : Reg64)
  | load (wide : Bool) (target base : Reg64) (disp : UInt8)
  | movImm32 (target : Reg64) (imm : UInt32)
  | movImm64 (target : Reg64) (imm : UInt64)
  | subImm (wide : Bool) (target : Reg64) (imm : UInt32)
  | dec (wide : Bool) (target : Reg64)
  | test (wide : Bool) (left right : Reg64)
  | push (source : Reg64)
  | pop (target : Reg64)
  | ret
  deriving DecidableEq

/-- The REX prefix. -/
structure Rex where
  w : Bool
  r : Bool
  x : Bool
  b : Bool
  deriving DecidableEq

/-- The register with this number, of which the prefix holds the high bit. -/
def regOfNumber (ext : Bool) (low : UInt8) : Reg64 :=
  match ext, low.toNat with
  | false, 0 => .RAX | false, 1 => .RCX | false, 2 => .RDX | false, 3 => .RBX
  | false, 4 => .RSP | false, 5 => .RBP | false, 6 => .RSI | false, _ => .RDI
  | true, 0 => .R8 | true, 1 => .R9 | true, 2 => .R10 | true, 3 => .R11
  | true, 4 => .R12 | true, 5 => .R13 | true, 6 => .R14 | true, _ => .R15

/-- The prefix at the start of an instruction, if there is one. -/
def takeRex : List UInt8 → Rex × List UInt8
  | [] => (⟨false, false, false, false⟩, [])
  | byte :: bytes =>
      if byte >>> 4 = 0b0100 then
        (⟨byte &&& 8 ≠ 0, byte &&& 4 ≠ 0, byte &&& 2 ≠ 0, byte &&& 1 ≠ 0⟩, bytes)
      else (⟨false, false, false, false⟩, byte :: bytes)

/-- The `rm` operand of a ModRM byte: a register, or memory at a register and an 8-bit
displacement. -/
inductive RmOperand where
  | reg (r : Reg64)
  | mem (base : Reg64) (disp : UInt8)

/-- The ModRM byte: the field `reg`, the operand `rm` and the bytes behind them.  The other
addressing modes, with a SIB byte or another displacement, are not decoded. -/
def takeModrm (rex : Rex) : List UInt8 → Option (UInt8 × RmOperand × List UInt8)
  | [] => none
  | byte :: bytes =>
      let reg := (byte >>> 3) &&& 7
      let rm := byte &&& 7
      if byte >>> 6 = 3 then some (reg, .reg (regOfNumber rex.b rm), bytes)
      else if byte >>> 6 = 1 ∧ rm ≠ 4 then
        match bytes with
        | [] => none
        | disp :: bytes => some (reg, .mem (regOfNumber rex.b rm) disp, bytes)
      else none

/-- The instruction behind the prefix. -/
def decodeOpcode (rex : Rex) : List UInt8 → Option (MachineInstruction × List UInt8)
  | [] => none
  | op :: bytes =>
      if op = 0xC3 then some (.ret, bytes)
      else if op >>> 3 = 0b01010 then some (.push (regOfNumber rex.b (op &&& 7)), bytes)
      else if op >>> 3 = 0b01011 then some (.pop (regOfNumber rex.b (op &&& 7)), bytes)
      else if op >>> 3 = 0b10111 then
        if rex.w then
          (readLE 8 bytes).map fun (imm, bytes) =>
            (.movImm64 (regOfNumber rex.b (op &&& 7)) (UInt64.ofNat imm), bytes)
        else
          (readLE 4 bytes).map fun (imm, bytes) =>
            (.movImm32 (regOfNumber rex.b (op &&& 7)) (UInt32.ofNat imm), bytes)
      else
        match takeModrm rex bytes with
        | none => none
        | some (reg, rm, bytes) =>
            if op = 0x89 then
              match rm with
              | .reg target => some (.movReg rex.w target (regOfNumber rex.r reg), bytes)
              | .mem base disp => some (.store rex.w base disp (regOfNumber rex.r reg), bytes)
            else if op = 0x8B then
              match rm with
              | .reg source => some (.movReg rex.w (regOfNumber rex.r reg) source, bytes)
              | .mem base disp => some (.load rex.w (regOfNumber rex.r reg) base disp, bytes)
            else if op = 0x85 then
              match rm with
              | .reg left => some (.test rex.w left (regOfNumber rex.r reg), bytes)
              | .mem _ _ => none
            else if op = 0x81 ∧ reg = 5 then
              match rm with
              | .reg target =>
                  (readLE 4 bytes).map fun (imm, bytes) =>
                    (.subImm rex.w target (UInt32.ofNat imm), bytes)
              | .mem _ _ => none
            else if op = 0xFF ∧ reg = 1 then
              match rm with
              | .reg target => some (.dec rex.w target, bytes)
              | .mem _ _ => none
            else none

/-- The first instruction, and the bytes behind it. -/
def decodeInstruction (bytes : List UInt8) : Option (MachineInstruction × List UInt8) :=
  decodeOpcode (takeRex bytes).1 (takeRex bytes).2

/-- At most `fuel` instructions. -/
def decodeFuel : ℕ → List UInt8 → Option (List MachineInstruction)
  | _, [] => some []
  | 0, _ => none
  | fuel + 1, bytes => do
      let (inst, rest) ← decodeInstruction bytes
      let insts ← decodeFuel fuel rest
      return inst :: insts

/-- The instructions of a byte sequence: none of them is empty. -/
def decode (bytes : List UInt8) : Option (List MachineInstruction) :=
  decodeFuel bytes.length bytes

/-! ## Calls of the encoder -/

/-- A call of one of the encoder's functions. -/
inductive EmitCall where
  | storeReg64 (source target : Reg64)
  | storeRegRBP64 (reg : Reg64) (disp : UInt8)
  | loadRegRBP64 (reg : Reg64) (disp : UInt8)
  | loadRegRBP32 (reg : Reg32) (disp : UInt8)
  | storeConst32 (reg : Reg32) (cons : UInt32)
  | storeConst64 (reg : Reg64) (cons : UInt64)
  | subConst64 (reg : Reg64) (imm : UInt32)
  | decReg64 (reg : Reg64)
  | checkZero32 (reg : Reg32)
  | checkZero64 (reg : Reg64)
  | pushReg (reg : Reg64)
  | popReg (reg : Reg64)
  | ret
  deriving DecidableEq

namespace EmitCall

/-- The bytes that a call pushes. -/
def emit : EmitCall → List UInt8
  | .storeReg64 source target => emitStoreReg64 source target
  | .storeRegRBP64 reg disp => emitStoreRegRBP64 reg disp
  | .loadRegRBP64 reg disp => emitLoadRegRBP64 reg disp
  | .loadRegRBP32 reg disp => emitLoadRegRBP32 reg disp
  | .storeConst32 reg cons => emitStoreConst32 reg cons
  | .storeConst64 reg cons => emitStoreConst64 reg cons
  | .subConst64 reg imm => emitSubConst64 reg imm
  | .decReg64 reg => emitDecReg64 reg
  | .checkZero32 reg => emitCheckZero32 reg
  | .checkZero64 reg => emitCheckZero64 reg
  | .pushReg reg => emitPushReg reg
  | .popReg reg => emitPopReg reg
  | .ret => emitRet

/-- The instruction that a call asks for. -/
def instruction : EmitCall → MachineInstruction
  | .storeReg64 source target => .movReg true target source
  | .storeRegRBP64 reg disp => .store true .RBP disp reg
  | .loadRegRBP64 reg disp => .load true reg .RBP disp
  | .loadRegRBP32 reg disp => .load false reg .RBP disp
  | .storeConst32 reg cons => .movImm32 reg cons
  | .storeConst64 reg cons => .movImm64 reg cons
  | .subConst64 reg imm => .subImm true reg imm
  | .decReg64 reg => .dec true reg
  | .checkZero32 reg => .test false reg reg
  | .checkZero64 reg => .test true reg reg
  | .pushReg reg => .push reg
  | .popReg reg => .pop reg
  | .ret => .ret

/-- The instruction that the processor sees: without its high bit the register of a 64-bit
load or a subtraction is another one, and so is the base register of the load. -/
def seen : EmitCall → MachineInstruction
  | .loadRegRBP64 reg disp =>
      .load true (regOfNumber false (kReg64Number reg &&& 7))
        (if kReg64Number reg > 7 then .R13 else .RBP) disp
  | .subConst64 reg imm => .subImm true (regOfNumber false (kReg64Number reg &&& 7)) imm
  | call => call.instruction

/-- The call is not a 64-bit load or a subtraction with one of the registers from `R8` on. -/
def Plain : EmitCall → Prop
  | .loadRegRBP64 reg _ => kReg64Number reg ≤ 7
  | .subConst64 reg _ => kReg64Number reg ≤ 7
  | _ => True

end EmitCall

/-- The bytes of a sequence of calls. -/
def emitAll (calls : List EmitCall) : List UInt8 := calls.flatMap EmitCall.emit

/-! ## Decoding one instruction -/

section Immediate

variable (reg : Reg64) (rest : List UInt8)

theorem decode_storeConst32_opcode :
    decodeInstruction ((if kReg64Number reg > 7 then
      emitRex 0 0 0 1 ++ [0xB8 ||| (kReg64Number reg &&& 0b111)]
      else [0xB8 ||| kReg64Number reg]) ++ rest) =
      (readLE 4 rest).map fun (imm, bytes) => (.movImm32 reg (UInt32.ofNat imm), bytes) := by
  cases reg <;> rfl

theorem decode_storeConst64_opcode :
    decodeInstruction (emitRex 1 0 0 (boolByte (kReg64Number reg > 7)) ++
      [0xB8 ||| (kReg64Number reg &&& 0b111)] ++ rest) =
      (readLE 8 rest).map fun (imm, bytes) => (.movImm64 reg (UInt64.ofNat imm), bytes) := by
  cases reg <;> rfl

/-- The high bit of the register is in REX.X, which has no meaning here. -/
theorem decode_subConst64_opcode :
    decodeInstruction (emitRex 1 0 (boolByte (kReg64Number reg > 7)) 0 ++ [0x81] ++
      emitModrm 3 5 (kReg64Number reg &&& 0b111) ++ rest) =
      (readLE 4 rest).map fun (imm, bytes) =>
        (.subImm true (regOfNumber false (kReg64Number reg &&& 7)) (UInt32.ofNat imm), bytes) := by
  cases reg <;> rfl

end Immediate

theorem decode_storeReg64 (source target : Reg64) (rest : List UInt8) :
    decodeInstruction (emitStoreReg64 source target ++ rest) =
      some (.movReg true target source, rest) := by
  cases source <;> cases target <;> rfl

/-- **One instruction.** -/
theorem decode_emit (call : EmitCall) (rest : List UInt8) :
    decodeInstruction (call.emit ++ rest) = some (call.seen, rest) := by
  cases call with
  | storeReg64 source target => exact decode_storeReg64 source target rest
  | storeRegRBP64 reg disp => cases reg <;> rfl
  | loadRegRBP64 reg disp => cases reg <;> rfl
  | loadRegRBP32 reg disp => cases reg <;> rfl
  | storeConst32 reg cons =>
      have hemit : emitStoreConst32 reg cons = (if kReg64Number reg > 7 then
          emitRex 0 0 0 1 ++ [0xB8 ||| (kReg64Number reg &&& 0b111)]
          else [0xB8 ||| kReg64Number reg]) ++ bytesLE 4 cons.toNat := by
        rw [emitStoreConst32]
        split <;> rfl
      show decodeInstruction (emitStoreConst32 reg cons ++ rest) = _
      rw [hemit, List.append_assoc, decode_storeConst32_opcode, readLE_append,
        Nat.mod_eq_of_lt (show cons.toNat < 256 ^ 4 from cons.toNat_lt), Option.map_some]
      show some (MachineInstruction.movImm32 reg (UInt32.ofNat cons.toNat), rest) = _
      rw [UInt32.ofNat_toNat]
      rfl
  | storeConst64 reg cons =>
      show decodeInstruction (emitStoreConst64 reg cons ++ rest) = _
      rw [emitStoreConst64, List.append_assoc, decode_storeConst64_opcode,
        readLE_append, Nat.mod_eq_of_lt (show cons.toNat < 256 ^ 8 from cons.toNat_lt),
        Option.map_some]
      show some (MachineInstruction.movImm64 reg (UInt64.ofNat cons.toNat), rest) = _
      rw [UInt64.ofNat_toNat]
      rfl
  | subConst64 reg imm =>
      show decodeInstruction (emitSubConst64 reg imm ++ rest) = _
      rw [emitSubConst64, List.append_assoc, decode_subConst64_opcode,
        readLE_append, Nat.mod_eq_of_lt (show imm.toNat < 256 ^ 4 from imm.toNat_lt),
        Option.map_some]
      show some (MachineInstruction.subImm true (regOfNumber false (kReg64Number reg &&& 7))
        (UInt32.ofNat imm.toNat), rest) = _
      rw [UInt32.ofNat_toNat]
      rfl
  | decReg64 reg => cases reg <;> rfl
  | checkZero32 reg => cases reg <;> rfl
  | checkZero64 reg => cases reg <;> rfl
  | pushReg reg => cases reg <;> rfl
  | popReg reg => cases reg <;> rfl
  | ret => rfl

theorem emit_ne_nil (call : EmitCall) : call.emit ≠ [] := by
  cases call with
  | storeReg64 source target => exact List.cons_ne_nil _ _
  | loadRegRBP32 reg disp => cases reg <;> exact List.cons_ne_nil _ _
  | storeConst32 reg cons => cases reg <;> exact List.cons_ne_nil _ _
  | checkZero32 reg => cases reg <;> exact List.cons_ne_nil _ _
  | pushReg reg => cases reg <;> exact List.cons_ne_nil _ _
  | popReg reg => cases reg <;> exact List.cons_ne_nil _ _
  | _ => exact List.cons_ne_nil _ _

/-- What the processor sees is what was asked for exactly in the plain calls. -/
theorem seen_eq_instruction_iff (call : EmitCall) : call.seen = call.instruction ↔ call.Plain := by
  cases call with
  | loadRegRBP64 reg disp =>
      unfold EmitCall.seen EmitCall.instruction EmitCall.Plain
      cases reg <;> simp [kReg64Number, regOfNumber]
  | subConst64 reg imm =>
      unfold EmitCall.seen EmitCall.instruction EmitCall.Plain
      cases reg <;> simp [kReg64Number, regOfNumber]
  | _ => exact ⟨fun _ => trivial, fun _ => rfl⟩

/-! ## Decoding a sequence -/

theorem decodeFuel_succ_cons (fuel : ℕ) (byte : UInt8) (bytes : List UInt8) :
    decodeFuel (fuel + 1) (byte :: bytes) = (decodeInstruction (byte :: bytes)).bind fun r =>
      (decodeFuel fuel r.2).bind fun insts => some (r.1 :: insts) := rfl

/-- **A sequence of calls** decodes to what the processor sees of each. -/
theorem decodeFuel_emitAll (calls : List EmitCall) (fuel : ℕ)
    (hfuel : (emitAll calls).length ≤ fuel) :
    decodeFuel fuel (emitAll calls) = some (calls.map EmitCall.seen) := by
  induction calls generalizing fuel with
  | nil => cases fuel <;> rfl
  | cons call calls ih =>
      obtain ⟨byte, bytes, hbytes⟩ := List.exists_cons_of_ne_nil (emit_ne_nil call)
      have hall : emitAll (call :: calls) = call.emit ++ emitAll calls := List.flatMap_cons
      rw [hall, hbytes, List.cons_append, List.length_cons, List.length_append] at hfuel
      obtain ⟨fuel, rfl⟩ : ∃ n, fuel = n + 1 := ⟨fuel - 1, by omega⟩
      have hdecode := decode_emit call (emitAll calls)
      rw [hall, hbytes, List.cons_append, decodeFuel_succ_cons, ← List.cons_append, ← hbytes,
        hdecode, Option.bind_some, ih fuel (by omega)]
      rfl

/-- **Decoding undoes encoding exactly if** no call is a 64-bit load from the stack or a
subtraction with one of the registers from `R8` on. -/
theorem decode_emit_iff (calls : List EmitCall) :
    decode (emitAll calls) = some (calls.map EmitCall.instruction) ↔
      ∀ call ∈ calls, call.Plain := by
  rw [decode, decodeFuel_emitAll calls _ (Nat.le_refl _), Option.some.injEq,
    List.map_inj_left]
  constructor
  · intro h call hcall
    exact (seen_eq_instruction_iff call).mp (h call hcall)
  · intro h call hcall
    exact (seen_eq_instruction_iff call).mpr (h call hcall)

/-- `mov r8, [rbp - 8]` is seen as `mov rax, [r13 - 8]`. -/
theorem decode_emit_load_extended :
    decode (emitAll [.loadRegRBP64 .R8 0xF8]) = some [.load true .RAX .R13 0xF8] ∧
      decode (emitAll [.loadRegRBP64 .R8 0xF8]) ≠
        some ([EmitCall.loadRegRBP64 .R8 0xF8].map EmitCall.instruction) := by
  decide
