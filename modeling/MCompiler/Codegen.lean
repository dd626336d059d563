/-
# The register allocator (`codegen.c`, `x86_64_assembly.c`)

Variables live in registers or in stack slots.  `variable_ref` brings a variable
into a register, evicting the least recently used one when none is free;
`variable_store` gives a variable a slot, stores it there and frees its register.

The allocator's pointers to `struct variable` are numbers, in order of
allocation, and the intrusive list `lruVariables` is the list of these numbers.
A failed assertion, or a recursion deeper than the given `fuel`, is `none`; the
four functions `variable_ref`, `codegen_allocateReg`, `variable_store` and
`arch_store` call each other, and `callDepth` is deep enough for all of them
(`variableStore_eq_run`, `variableRef_eq_run`).
-/
import Mathlib.Logic.Function.Basic
import Mathlib.Tactic.SplitIfs
import MCompiler.X86Assembly
import MCompiler.Lib.Runs

open Runs

/-! ## The data types -/

/-- `struct variable`: its register id and its stack position, `-1` for none. -/
structure Variable where
  reg : ℤ
  stackPos : ℤ
  deriving DecidableEq, Repr

/-- A call of one of the encoder's functions, with the arguments it gets.  The
displacement is the `int` argument, before it becomes a `char`. -/
inductive Emit where
  | loadRegRBP64 (reg : Reg64) (disp : ℤ)
  | storeRegRBP64 (reg : Reg64) (disp : ℤ)
  | storeReg64 (source target : Reg64)
  | call
  deriving DecidableEq, Repr

/-- The conversion of an `int` to `char`. -/
def toChar (n : ℤ) : UInt8 := UInt8.ofNat (n % 256).toNat

/-- The bytes an encoder call pushes (for a call, before the label is applied). -/
def Emit.bytes : Emit → List UInt8
  | .loadRegRBP64 reg disp => emitLoadRegRBP64 reg (toChar disp)
  | .storeRegRBP64 reg disp => emitStoreRegRBP64 reg (toChar disp)
  | .storeReg64 source target => emitStoreReg64 source target
  | .call => (emitCall 0 {}).2

/-- `struct codegen`: the emitted code, the frame size in slots, the variables held
in registers in order of their last use, the variable of each register, and the
variables allocated so far (numbers below `nextVar`). -/
structure Codegen where
  registerCount : ℕ
  code : List Emit
  frameSize : ℕ
  lruVariables : List ℕ
  registerStatus : ℕ → Option ℕ
  vars : ℕ → Variable
  nextVar : ℕ

namespace Codegen

/-- The number of bytes in the code buffer. -/
def usage (cg : Codegen) : ℕ := (cg.code.flatMap Emit.bytes).length

/-- Append an encoder call. -/
def emit (cg : Codegen) (e : Emit) : Codegen := { cg with code := cg.code ++ [e] }

/-- `var->reg = reg`. -/
def setReg (cg : Codegen) (var : ℕ) (reg : ℤ) : Codegen :=
  { cg with vars := Function.update cg.vars var { cg.vars var with reg := reg } }

/-- `var->stackPos = stackPos`. -/
def setStackPos (cg : Codegen) (var : ℕ) (stackPos : ℤ) : Codegen :=
  { cg with vars := Function.update cg.vars var { cg.vars var with stackPos := stackPos } }

/-- `cg->registerStatus[reg] = var`. -/
def setStatus (cg : Codegen) (reg : ℤ) (var : Option ℕ) : Codegen :=
  { cg with registerStatus := Function.update cg.registerStatus reg.toNat var }

/-- `list_add(&cg->lruVariables, &var->list)`. -/
def lruAdd (cg : Codegen) (var : ℕ) : Codegen :=
  { cg with lruVariables := cg.lruVariables ++ [var] }

/-- `list_deattach(&var->list)`. -/
def lruDeattach (cg : Codegen) (var : ℕ) : Codegen :=
  { cg with lruVariables := cg.lruVariables.erase var }

end Codegen

/-! ## The functions -/

/-- The table of `_getRealReg`. -/
def realRegs : List Reg64 := [.RAX, .RCX, .RDX, .RSI, .RDI, .R8, .R9, .R10, .R11, .R12]

/-- `_getRealReg`. -/
def getRealReg (i : ℤ) : Reg64 := realRegs.getD i.toNat .RAX

/-- `arch_getRealReg`. -/
def archGetRealReg (cg : Codegen) (var : ℕ) : Reg64 := getRealReg (cg.vars var).reg

/-- `arch_loadReg`. -/
def archLoadReg (cg : Codegen) (var : ℕ) : Option Codegen :=
  if (cg.vars var).stackPos > 0 then
    let rReg := archGetRealReg cg var
    some (cg.emit (.loadRegRBP64 rReg (-(cg.vars var).stackPos * 8)))
  else none

/-- `_lruBump`. -/
def lruBump (cg : Codegen) (var : ℕ) : Codegen := (cg.lruDeattach var).lruAdd var

mutual

/-- `variable_ref`. -/
def variableRef : ℕ → Codegen → ℕ → Option (ℤ × Codegen)
  | 0, _, _ => none
  | fuel + 1, cg, var =>
      if (cg.vars var).reg ≥ 0 then some ((cg.vars var).reg, lruBump cg var)
      else do
        let (result, cg) ← codegenAllocateReg fuel cg
        let cg := cg.setReg var result
        let cg := cg.setStatus result (some var)
        let cg ← archLoadReg cg var
        some (result, cg.lruAdd var)

/-- `codegen_allocateReg`: the first free register, or that of the least recently
used variable, which is stored first. -/
def codegenAllocateReg : ℕ → Codegen → Option (ℤ × Codegen)
  | 0, _ => none
  | fuel + 1, cg =>
      match (List.range cg.registerCount).find? (fun i => (cg.registerStatus i).isNone) with
      | some i => some (i, cg)
      | none =>
          match cg.lruVariables.head? with
          | none => none
          | some var => do
              let reg := (cg.vars var).reg
              let cg ← variableStore fuel cg var
              some (reg, cg)

/-- `variable_store`. -/
def variableStore : ℕ → Codegen → ℕ → Option Codegen
  | 0, _, _ => none
  | fuel + 1, cg, var => do
      let cg :=
        if (cg.vars var).stackPos < 0 then
          let frameSize := sizeAdd cg.frameSize 1
          { cg with frameSize := frameSize }.setStackPos var (toInt frameSize)
        else cg
      let cg ← archStore fuel cg var
      let cg := cg.lruDeattach var
      let cg := cg.setStatus (cg.vars var).reg none
      some (cg.setReg var (-1))

/-- `arch_store`, which `arch_spill` is another name of. -/
def archStore : ℕ → Codegen → ℕ → Option Codegen
  | 0, _, _ => none
  | fuel + 1, cg, var =>
      if (cg.vars var).stackPos ≥ 0 then do
        let (_, cg) ← variableRef fuel cg var
        let rReg := archGetRealReg cg var
        some (cg.emit (.storeRegRBP64 rReg (-(cg.vars var).stackPos * 8)))
      else none

end

/-- Deep enough for every call: a variable out of registers is stored by bringing
it in, which may store another one that is in a register. -/
def callDepth : ℕ := 8

/-- `codegen_init`. -/
def codegenInit (registerCount : ℕ) : Codegen :=
  { registerCount := registerCount, code := [], frameSize := 0, lruVariables := [],
    registerStatus := fun _ => none, vars := fun _ => ⟨-1, -1⟩, nextVar := 0 }

/-- `codegen_pushBlock` at a code buffer of `usage` bytes. -/
def codegenPushBlock (usage : ℕ) (label : Label) : Label :=
  labelSetOffset label (UInt64.ofNat usage)

/-- `codegen_newVarReg`: the number of the new variable is the old `nextVar`. -/
def codegenNewVarReg (cg : Codegen) (reg : ℤ) : Codegen :=
  let var := cg.nextVar
  let cg := { cg with vars := Function.update cg.vars var ⟨reg, -1⟩, nextVar := var + 1 }
  (cg.setStatus reg (some var)).lruAdd var

/-- `codegen_newVar`. -/
def codegenNewVar (cg : Codegen) : Option Codegen := do
  let (reg, cg) ← codegenAllocateReg callDepth cg
  some (codegenNewVarReg cg reg)

/-- The allocator ids of `%rdi, %rsi, %rdx, %rcx, %r8, %r9`. -/
def argRegs : List ℕ := [4, 3, 2, 1, 5, 6]

/-- `arch_initFunctionArg`. -/
def archInitFunctionArg (cg : Codegen) (i : ℕ) : Codegen :=
  if i < 6 then codegenNewVarReg cg (argRegs.getD i 0) else cg

/-- `codegen_initFunction`: the argument variables are the first `argCount` ones. -/
def codegenInitFunction (cg : Codegen) (argCount : ℕ) : Codegen :=
  (List.range argCount).foldl archInitFunctionArg cg

/-- One round of the loop that stores whatever a register holds. -/
def storeRegister (cg : Codegen) (i : ℕ) : Option Codegen :=
  match cg.registerStatus i with
  | none => some cg
  | some var => variableStore callDepth cg var

/-- `codegen_popBlock`. -/
def codegenPopBlock (cg : Codegen) : Option Codegen :=
  (List.range cg.registerCount).foldlM storeRegister cg

/-- One round of the argument loop of `arch_functionCall`. -/
def passArgument (var : List ℕ) (cg : Codegen) (i : ℕ) : Option Codegen :=
  match var[i]? with
  | none => some cg
  | some v =>
      if (cg.vars v).reg = -1 then archLoadReg (cg.setReg v (argRegs.getD i 0)) v
      else some (cg.emit (.storeReg64 (archGetRealReg cg v) (getRealReg (argRegs.getD i 0))))

/-- `arch_functionCall` with the arguments `var`; it also records the relocation of
the call in `label`. -/
def archFunctionCall (cg : Codegen) (label : Label) (var : List ℕ) :
    Option (Codegen × Label) :=
  if var.length < 7 then do
    let cg ← (List.range cg.registerCount).foldlM storeRegister cg
    let cg ← (List.range 6).foldlM (passArgument var) cg
    let cg := var.foldl (fun cg v => cg.setReg v (-1)) cg
    some (cg.emit .call, (emitCall cg.usage label).1)
  else none
