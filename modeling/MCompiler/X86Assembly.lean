/-
# The x86-64 encoder (`x86_64.h`, `x86_64_assembly.c`)

The byte sequences the `emit_*` functions push, as lists of bytes.
-/
import MCompiler.Lib.LittleEndian
import MCompiler.Relocation

/-- `reg64`. -/
inductive Reg64 where
  | RAX | RCX | RDX | RBX | RSP | RBP | RSI | RDI
  | R8 | R9 | R10 | R11 | R12 | R13 | R14 | R15
  deriving DecidableEq, Repr

/-- `kReg64Number`. -/
def kReg64Number : Reg64 → UInt8
  | .RAX => 0 | .RCX => 1 | .RDX => 2 | .RBX => 3
  | .RSP => 4 | .RBP => 5 | .RSI => 6 | .RDI => 7
  | .R8 => 8 | .R9 => 9 | .R10 => 10 | .R11 => 11
  | .R12 => 12 | .R13 => 13 | .R14 => 14 | .R15 => 15

/-- `reg32` : its enumerators have the positions and the numbers of those of `reg64`. -/
abbrev Reg32 := Reg64

/-- `kReg32Number`. -/
def kReg32Number : Reg32 → UInt8 := kReg64Number

/-- A C comparison as an integer. -/
def boolByte (b : Bool) : UInt8 := if b then 1 else 0

/-- `emit_rex`. -/
def emitRex (w r x b : UInt8) : List UInt8 :=
  [((0b0100 : UInt8) <<< 4) ||| (w <<< 3) ||| (r <<< 2) ||| (x <<< 1) ||| b]

/-- `emit_modrm`. -/
def emitModrm (mod regop rm : UInt8) : List UInt8 :=
  [(mod <<< 6) ||| (regop <<< 3) ||| rm]

/-- `emit_checkZero32`. -/
def emitCheckZero32 (reg : Reg32) : List UInt8 :=
  let regNumber := kReg32Number reg
  if regNumber > 7 then
    emitRex 0 1 0 1 ++ [0x85] ++ emitModrm 3 (regNumber &&& 0b111) (regNumber &&& 0b111)
  else [0x85] ++ emitModrm 3 regNumber regNumber

/-- `emit_checkZero64`. -/
def emitCheckZero64 (reg : Reg64) : List UInt8 :=
  let regNumber := kReg32Number reg
  emitRex 1 (boolByte (regNumber > 7)) 0 (boolByte (regNumber > 7)) ++ [0x85] ++
    emitModrm 3 (regNumber &&& 0b111) (regNumber &&& 0b111)

/-- `emit_loadRegRBP32`. -/
def emitLoadRegRBP32 (reg : Reg32) (disp : UInt8) : List UInt8 :=
  let regNumber := kReg32Number reg
  if regNumber > 7 then
    emitRex 0 1 0 0 ++ [0x8B] ++ emitModrm 1 (regNumber &&& 0b111) (kReg64Number .RBP) ++ [disp]
  else [0x8B] ++ emitModrm 1 regNumber (kReg64Number .RBP) ++ [disp]

/-- `emit_loadRegRBP64`; `disp` is the displacement as the `char` it is passed as. -/
def emitLoadRegRBP64 (reg : Reg64) (disp : UInt8) : List UInt8 :=
  let regNumber := kReg64Number reg
  emitRex 1 0 0 (boolByte (regNumber > 7)) ++ [0x8B] ++
    emitModrm 1 (regNumber &&& 0b111) (kReg64Number .RBP) ++ [disp]

/-- `emit_storeRegRBP64`. -/
def emitStoreRegRBP64 (reg : Reg64) (disp : UInt8) : List UInt8 :=
  let regNumber := kReg64Number reg
  emitRex 1 (boolByte (regNumber > 7)) 0 0 ++ [0x89] ++
    emitModrm 1 (regNumber &&& 0b111) (kReg64Number .RBP) ++ [disp]

/-- `emit_storeReg64`. -/
def emitStoreReg64 (source target : Reg64) : List UInt8 :=
  let fromNumber := kReg64Number source
  let toNumber := kReg64Number target
  emitRex 1 (boolByte (fromNumber > 7)) 0 (boolByte (toNumber > 7)) ++ [0x89] ++
    emitModrm 3 (fromNumber &&& 0b111) (toNumber &&& 0b111)

/-- `emit_storeConst32`; the constant is the `int` as `dbuffer_pushInt` pushes it, low bytes
first. -/
def emitStoreConst32 (reg : Reg32) (cons : UInt32) : List UInt8 :=
  let regNumber := kReg64Number reg
  if regNumber > 7 then
    emitRex 0 0 0 1 ++ [0xB8 ||| (regNumber &&& 0b111)] ++ bytesLE 4 cons.toNat
  else [0xB8 ||| regNumber] ++ bytesLE 4 cons.toNat

/-- `emit_storeConst64`; the constant goes through `dbuffer_pushLong`. -/
def emitStoreConst64 (reg : Reg64) (cons : UInt64) : List UInt8 :=
  let regNumber := kReg64Number reg
  emitRex 1 0 0 (boolByte (regNumber > 7)) ++ [0xB8 ||| (regNumber &&& 0b111)] ++
    bytesLE 8 cons.toNat

/-- `emit_subConst64`. -/
def emitSubConst64 (reg : Reg64) (imm : UInt32) : List UInt8 :=
  let regNumber := kReg64Number reg
  emitRex 1 0 (boolByte (regNumber > 7)) 0 ++ [0x81] ++ emitModrm 3 5 (regNumber &&& 0b111) ++
    bytesLE 4 imm.toNat

/-- `emit_pushReg`. -/
def emitPushReg (reg : Reg64) : List UInt8 :=
  let regNumber := kReg64Number reg
  if regNumber > 7 then emitRex 1 0 0 1 ++ [0x50 ||| (regNumber &&& 0b111)]
  else [0x50 ||| regNumber]

/-- `emit_popReg`. -/
def emitPopReg (reg : Reg64) : List UInt8 :=
  let regNumber := kReg64Number reg
  if regNumber > 7 then emitRex 1 0 0 1 ++ [0x58 ||| (regNumber &&& 0b111)]
  else [0x58 ||| regNumber]

/-- `emit_ret`. -/
def emitRet : List UInt8 := [0xC3]

/-- `emit_decReg64`. -/
def emitDecReg64 (reg : Reg64) : List UInt8 :=
  let regNumber := kReg64Number reg
  emitRex 1 0 0 (boolByte (regNumber > 7)) ++ [0xFF] ++ emitModrm 3 1 (regNumber &&& 0b111)

/-- `emit_call` at a buffer of `usage` bytes. -/
def emitCall (usage : ℕ) (label : Label) : Label × List UInt8 :=
  let (label, field) := relocationEmit (usage + 1) label .RELATIVE .INT32 4
  (label, [0xe8] ++ field)

/-- `emit_jumpRel8` at a buffer of `usage` bytes. -/
def emitJumpRel8 (usage : ℕ) (label : Label) : Label × List UInt8 :=
  let (label, field) := relocationEmit (usage + 1) label .RELATIVE .INT8 1
  (label, [0xEB] ++ field)

/-- `emit_jumpZeroRel8` at a buffer of `usage` bytes. -/
def emitJumpZeroRel8 (usage : ℕ) (label : Label) : Label × List UInt8 :=
  let (label, field) := relocationEmit (usage + 1) label .RELATIVE .INT8 1
  (label, [0x75] ++ field)

/-- `emit_storeLabel64` at a buffer of `usage` bytes. -/
def emitStoreLabel64 (reg : Reg64) (usage : ℕ) (label : Label) : Label × List UInt8 :=
  let regNumber := kReg64Number reg
  let head := emitRex 1 0 0 (boolByte (regNumber > 7)) ++ [0xB8 ||| (regNumber &&& 0b111)]
  let (label, field) := relocationEmit (usage + head.length) label .ABSOLUTE .INT64 0
  (label, head ++ field)

/-- `emit_subLabel64` at a buffer of `usage` bytes. -/
def emitSubLabel64 (reg : Reg64) (usage : ℕ) (label : Label) : Label × List UInt8 :=
  let regNumber := kReg64Number reg
  let head := emitRex 1 0 (boolByte (regNumber > 7)) 0 ++ [0x81] ++
    emitModrm 3 5 (regNumber &&& 0b111)
  let (label, field) := relocationEmit (usage + head.length) label .ABSOLUTE .INT32 0
  (label, head ++ field)
