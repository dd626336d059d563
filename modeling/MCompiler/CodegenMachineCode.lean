/-
# The machine code of a client

A client of the register allocator writes a variable by moving a constant to the register it was
granted.  Its code is then a sequence of bytes, in which only the displacements of the calls are
still open, and the processor executes it.

`session_executes`: when the processor has executed the code of a session, every variable that
has been written is in its register, or in its slot below `RBP` when it has none, as long as no
slot is loaded to a register from `R8` on, sixteen slots are enough, the code fits in the buffer
and the functions called keep `RBP`, `RSP` and the frame.  The calls of a session say what the functions leave in the
registers; on the processor it is what they really do (`step_withMachine`).
-/
import MCompiler.CodegenRoom
import MCompiler.X86Processor

open Runs

/-! ## The code of a session -/

/-- A piece of code: what the allocator emits, and a constant that the client moves to a
register by `emit_storeConst64`. -/
inductive CodeItem where
  | emit (e : Emit)
  | const (reg : Reg64) (value : UInt64)
  deriving DecidableEq

/-- The bytes of a piece of code.  A label decides the displacement of a call. -/
def CodeItem.Encodes : CodeItem → List UInt8 → Prop
  | .emit .call, bytes => ∃ field : List UInt8, field.length = 4 ∧ bytes = 0xE8 :: field
  | .emit e, bytes => bytes = e.bytes
  | .const reg value, bytes => bytes = emitStoreConst64 reg value

/-- The bytes that the encoder pushes, with the field of a call still zero. -/
def CodeItem.pushed : CodeItem → List UInt8
  | .emit e => e.bytes
  | .const reg value => emitStoreConst64 reg value

/-- The bytes of a piece of code after the other. -/
inductive Encoded : List CodeItem → List UInt8 → Prop
  | nil : Encoded [] []
  | cons {item : CodeItem} {items : List CodeItem} {bytes rest : List UInt8} :
      item.Encodes bytes → Encoded items rest → Encoded (item :: items) (bytes ++ rest)

/-- The bytes pushed are an encoding. -/
theorem encoded_pushed (items : List CodeItem) : Encoded items (items.flatMap CodeItem.pushed) := by
  induction items with
  | nil => exact .nil
  | cons item items ih =>
      refine .cons ?_ ih
      cases item with
      | const reg value => rfl
      | emit e =>
          cases e with
          | call => exact ⟨[0, 0, 0, 0], rfl, rfl⟩
          | _ => rfl

/-- The data of the encoder's pushes. -/
def CodeItem.pushes : CodeItem → List (List UInt8)
  | .emit e => e.pushes
  | .const reg value => (emitStoreConst64 reg value).map ([·])

theorem CodeItem.pushes_spec {item : CodeItem} {bytes : List UInt8} (h : item.Encodes bytes) :
    (item.pushes.map List.length).sum = bytes.length ∧ ∀ data ∈ item.pushes, data.length ≤ 4 := by
  cases item with
  | emit e =>
      refine ⟨?_, e.pushes_small⟩
      rw [← List.length_flatten, CodeItem.pushes, e.flatten_pushes]
      cases e with
      | call =>
          obtain ⟨field, hfield, rfl⟩ := h
          rw [List.length_cons, hfield]
          rfl
      | _ => exact congrArg List.length (Eq.symm h)
  | const reg value =>
      obtain rfl : bytes = emitStoreConst64 reg value := h
      refine ⟨?_, fun data hdata => ?_⟩
      · have hlength : List.length ∘ (fun byte : UInt8 => [byte]) = fun _ => 1 := rfl
        rw [CodeItem.pushes, List.map_map, hlength, List.map_const', List.sum_replicate_nat,
          Nat.mul_one]
      · obtain ⟨byte, -, rfl⟩ := List.mem_map.mp hdata
        exact Nat.le_of_ble_eq_true rfl

/-- Code of at most 2000 bytes is stored inside the block of `cg->buffer`. -/
theorem Encoded.stored {items : List CodeItem} {bytes : List UInt8} (h : Encoded items bytes)
    (hlen : bytes.length ≤ 2000) : PushesStored 1000 (items.flatMap CodeItem.pushes) := by
  have hspec : ((items.flatMap CodeItem.pushes).map List.length).sum = bytes.length ∧
      ∀ data ∈ items.flatMap CodeItem.pushes, data.length ≤ 4 := by
    clear hlen
    induction h with
    | nil => exact ⟨rfl, nofun⟩
    | cons hitem _ ih =>
        obtain ⟨hsum, hsmall⟩ := CodeItem.pushes_spec hitem
        rw [List.flatMap_cons, List.map_append, List.sum_append, hsum, ih.1, List.length_append]
        refine ⟨rfl, fun data hdata => ?_⟩
        exact (List.mem_append.mp hdata).elim (hsmall data) (ih.2 data)
  refine (pushesStored_iff_of_small (by decide) fun data hdata => ?_).mpr (hspec.1.trans_le hlen)
  have hle := hspec.2 data hdata
  omega

namespace Session

/-- The code of an action that takes `s` to `s'`. -/
def items (s : Session) (op : SessionOp) (s' : Session) : List CodeItem :=
  match op, s.granted with
  | .write value, some (_, reg) => [.const (getRealReg reg) value]
  | _, _ => (s'.cg.code.drop s.cg.code.length).map .emit

/-- The code of a sequence of actions. -/
def code : Session → List SessionOp → List CodeItem
  | _, [] => []
  | s, op :: ops =>
      match s.step op with
      | none => []
      | some s' => s.items op s' ++ s'.code ops

end Session

/-! ## The frame -/

/-- The address of a slot. -/
def frameSlot (rbp : UInt64) (k : ℕ) : UInt64 := rbp + UInt64.ofInt (-k * 8)

/-- What the allocator's machine is on the processor: slots are at displacements from `RBP`. -/
def Processor.machine (p : Processor) : Machine where
  regs := p.regs
  slots disp := readWord p.memory (p.regs .RBP + UInt64.ofInt disp)

/-- A called function returns with `RBP` and `RSP` as they were, and it does not write to the
frame between them. -/
structure KeepsFrame (callee : UInt64 → Processor → Processor) : Prop where
  rbp : ∀ target p, (callee target p).regs .RBP = p.regs .RBP
  rsp : ∀ target p, (callee target p).regs .RSP = p.regs .RSP
  memory : ∀ target p a, (a - p.regs .RSP).toNat < (p.regs .RBP - p.regs .RSP).toNat →
    (callee target p).memory a = p.memory a

section Frame

variable {rbp rsp : UInt64} {j k : ℕ}

theorem toNat_frameOffset (hk : k ≤ 16) :
    (UInt64.ofInt (-k * 8)).toNat = (2 ^ 64 - k * 8) % 2 ^ 64 := by
  show (UInt64.ofNat ((-k * 8 : ℤ) % 2 ^ 64).toNat).toNat = _
  rw [UInt64.toNat_ofNat']
  omega

/-- Different slots are apart. -/
theorem frameSlot_apart (hj : j ≤ 16) (hk : k ≤ 16) (hne : j ≠ k) :
    BytesApart (frameSlot rbp j) 8 (frameSlot rbp k) 8 := by
  intro i hi
  unfold frameSlot
  rw [UInt64.toNat_sub, UInt64.toNat_add, UInt64.toNat_add, UInt64.toNat_add,
    toNat_frameOffset hj, toNat_frameOffset hk, UInt64.toNat_ofNat']
  have hlt := rbp.toNat_lt
  omega

/-- The slots of the frame lie between `RSP` and `RBP`. -/
theorem frameSlot_inside (hk : 1 ≤ k) (h16 : k ≤ 16) (hframe : 8 * k ≤ (rbp - rsp).toNat) {i : ℕ}
    (hi : i < 8) : (frameSlot rbp k + UInt64.ofNat i - rsp).toNat < (rbp - rsp).toNat := by
  unfold frameSlot
  rw [UInt64.toNat_sub] at hframe ⊢
  rw [UInt64.toNat_add, UInt64.toNat_add, toNat_frameOffset h16, UInt64.toNat_ofNat',
    UInt64.toNat_sub]
  have hlt := rbp.toNat_lt
  have hlt' := rsp.toNat_lt
  omega

end Frame

/-! ## One piece of code -/

/-- The allocator's machine with a piece of code executed. -/
def Machine.execItem (clobber : Reg64 → UInt64) (m : Machine) : CodeItem → Machine
  | .emit e => m.exec clobber e
  | .const reg value => { m with regs := Function.update m.regs reg value }

/-- What a sequence of pieces of code does. -/
def Machine.execItems (clobber : Reg64 → UInt64) (m : Machine) (items : List CodeItem) : Machine :=
  items.foldl (Machine.execItem clobber) m

/-- The register that a piece of code writes. -/
def CodeItem.target : CodeItem → Option Reg64
  | .emit e => e.target
  | .const reg _ => some reg

/-- The code of a frame with `frame` slots: it accesses these slots, writes neither `RBP` nor
`RSP`, and loads none of the registers from `R8` on. -/
structure CodeItem.Fits (frame : ℕ) (item : CodeItem) : Prop where
  slot : ∀ e disp, item = .emit e → e.disp = some disp →
    ∃ k : ℕ, 1 ≤ k ∧ k ≤ frame ∧ disp = -k * 8
  target : ∀ reg, item.target = some reg → reg ≠ .RBP ∧ reg ≠ .RSP
  plain : ∀ reg disp, item = .emit (.loadRegRBP64 reg disp) → kReg64Number reg ≤ 7

/-- The processor and the allocator's machine have the same registers and the same slots. -/
structure InFrame (frame : ℕ) (rbp rsp : UInt64) (m : Machine) (p : Processor) : Prop where
  regs : p.regs = m.regs
  slots : ∀ k, 1 ≤ k → k ≤ frame → readWord p.memory (frameSlot rbp k) = m.slots (-k * 8)
  rbp : p.regs .RBP = rbp
  rsp : p.regs .RSP = rsp

section Execute

variable {callee : UInt64 → Processor → Processor} {rbp rsp : UInt64} {frame k : ℕ} {m : Machine}
  {p : Processor}

/-- Writing another register. -/
theorem InFrame.setReg (h : InFrame frame rbp rsp m p) {reg : Reg64} (hrbp : reg ≠ .RBP)
    (hrsp : reg ≠ .RSP) {v w : UInt64} (hv : v = w) :
    InFrame frame rbp rsp { m with regs := Function.update m.regs reg w } (p.setReg reg v) where
  regs := by rw [← h.regs, hv]; rfl
  slots := h.slots
  rbp := (Function.update_of_ne (Ne.symm hrbp) ..).trans h.rbp
  rsp := (Function.update_of_ne (Ne.symm hrsp) ..).trans h.rsp

theorem InFrame.address (h : InFrame frame rbp rsp m p) (hframe : frame ≤ 16) (hk : k ≤ frame) :
    p.address .RBP (toChar (-k * 8)) = frameSlot rbp k := by
  unfold Processor.address frameSlot
  rw [h.rbp]
  have hsigned : signedByte (toChar (-k * 8)) = -k * 8 := signExtend_toChar (by omega) (by omega)
  rw [hsigned]

/-- Storing to a slot. -/
theorem InFrame.store (h : InFrame frame rbp rsp m p) (hframe : frame ≤ 16) (hk : 1 ≤ k)
    (hle : k ≤ frame) (v : UInt64) :
    InFrame frame rbp rsp { m with slots := Function.update m.slots (-k * 8) v }
      { p with memory := writeWord p.memory (frameSlot rbp k) v } where
  regs := h.regs
  slots j hj hj' := by
    show readWord (writeWord p.memory (frameSlot rbp k) v) (frameSlot rbp j) =
      Function.update m.slots (-k * 8) v (-j * 8)
    by_cases hjk : j = k
    · subst hjk
      rw [Function.update_self]
      exact readWord_writeWord
    · rw [Function.update_of_ne (by omega), ← h.slots j hj hj']
      exact readWord_writeWord_of_apart
        (frameSlot_apart (hle.trans hframe) (hj'.trans hframe) (Ne.symm hjk))
  rbp := h.rbp
  rsp := h.rsp

/-- Calling a function, which leaves registers behind. -/
theorem InFrame.call (h : InFrame frame rbp rsp m p) (hframe : frame ≤ 16)
    (hrsp : 8 * frame ≤ (rbp - rsp).toNat) (hcallee : KeepsFrame callee) (target : UInt64) :
    InFrame frame rbp rsp (m.exec (callee target p).regs .call) (callee target p) where
  regs := rfl
  slots k hk hle := by
    refine Eq.trans ?_ (h.slots k hk hle)
    refine readWord_congr fun i hi => hcallee.memory target p _ ?_
    rw [h.rbp, h.rsp]
    exact frameSlot_inside hk (hle.trans hframe) (by omega) hi
  rbp := (hcallee.rbp target p).trans h.rbp
  rsp := (hcallee.rsp target p).trans h.rsp

/-- The encoder call of a piece of code other than a call. -/
def CodeItem.encoderCall : CodeItem → Option EmitCall
  | .emit (.loadRegRBP64 reg disp) => some (.loadRegRBP64 reg (toChar disp))
  | .emit (.storeRegRBP64 reg disp) => some (.storeRegRBP64 reg (toChar disp))
  | .emit (.storeReg64 source target) => some (.storeReg64 source target)
  | .emit .call => none
  | .const reg value => some (.storeConst64 reg value)

theorem encodes_of_encoderCall {item : CodeItem} {call : EmitCall} (h : item.encoderCall = some call)
    {bytes : List UInt8} (hbytes : item.Encodes bytes) : bytes = call.emit := by
  cases item with
  | emit e =>
      cases e with
      | call => cases h
      | _ =>
          cases h
          exact hbytes
  | const reg value =>
      cases h
      exact hbytes

/-- **What the processor does at a piece of code** other than a call. -/
theorem InFrame.item (h : InFrame frame rbp rsp m p) (hframe : frame ≤ 16) {item : CodeItem}
    (hfits : item.Fits frame) {call : EmitCall} (hcall : item.encoderCall = some call)
    (clobber : Reg64 → UInt64) :
    call.seen ≠ .ret ∧ InFrame frame rbp rsp (m.execItem clobber item) (call.seen.exec p) := by
  cases item with
  | emit e =>
      cases e with
      | loadRegRBP64 reg disp =>
          cases hcall
          obtain ⟨k, hk, hle, rfl⟩ := hfits.slot _ _ rfl rfl
          obtain ⟨hrbp, hrsp⟩ := hfits.target reg rfl
          have hplain : (EmitCall.loadRegRBP64 reg (toChar (-k * 8))).Plain := hfits.plain reg _ rfl
          rw [(seen_eq_instruction_iff _).mpr hplain]
          refine ⟨MachineInstruction.noConfusion, h.setReg hrbp hrsp ?_⟩
          rw [h.address hframe hle, h.slots k hk hle]
      | storeRegRBP64 reg disp =>
          cases hcall
          obtain ⟨k, hk, hle, rfl⟩ := hfits.slot _ _ rfl rfl
          have hreg : p.regs reg = m.regs reg := congrFun h.regs reg
          refine ⟨MachineInstruction.noConfusion, ?_⟩
          show InFrame frame rbp rsp _ { p with
            memory := writeWord p.memory (p.address .RBP (toChar (-k * 8))) (p.regs reg) }
          rw [h.address hframe hle, hreg]
          exact h.store hframe hk hle (m.regs reg)
      | storeReg64 source target =>
          cases hcall
          obtain ⟨hrbp, hrsp⟩ := hfits.target target rfl
          exact ⟨MachineInstruction.noConfusion, h.setReg hrbp hrsp (congrFun h.regs source)⟩
      | call => cases hcall
  | const reg value =>
      cases hcall
      obtain ⟨hrbp, hrsp⟩ := hfits.target reg rfl
      exact ⟨MachineInstruction.noConfusion, h.setReg hrbp hrsp rfl⟩

/-- What a call leaves behind has no part in what another piece of code does. -/
theorem execItem_clobber {item : CodeItem} {call : EmitCall} (hcall : item.encoderCall = some call)
    (m : Machine) (clobber clobber' : Reg64 → UInt64) :
    m.execItem clobber item = m.execItem clobber' item := by
  cases item with
  | emit e =>
      cases e with
      | call => cases hcall
      | _ => rfl
  | const reg value => rfl

theorem encoderCall_eq_none {item : CodeItem} (h : item.encoderCall = none) :
    item = .emit .call := by
  cases item with
  | emit e =>
      cases e with
      | call => rfl
      | _ => cases h
  | const reg value => cases h

/-- **Executing a sequence of pieces of code**, of which only the last may be a call: the
registers that a called function leaves behind are those of the processor at the end. -/
theorem InFrame.execute (memLocation : UInt64) (hcallee : KeepsFrame callee) (hframe : frame ≤ 16)
    (hrsp : 8 * frame ≤ (rbp - rsp).toNat) {items : List CodeItem} {bytes : List UInt8}
    (hbytes : Encoded items bytes) (hfits : ∀ item ∈ items, item.Fits frame)
    (hcalls : ∀ item ∈ items.dropLast, item ≠ .emit .call) (h : InFrame frame rbp rsp m p)
    (pre post : List UInt8) : ∃ clobber p',
      Proceeds callee memLocation (pre ++ (bytes ++ post)) (pre.length, p)
        ((pre ++ bytes).length, p') ∧
      InFrame frame rbp rsp (m.execItems clobber items) p' := by
  induction hbytes generalizing m p pre with
  | nil => exact ⟨m.regs, p, by rw [List.append_nil]; exact .refl, h⟩
  | @cons item items bytes rest hencodes hrest ih =>
      rw [List.append_assoc]
      cases hcall : item.encoderCall with
      | some call =>
          obtain rfl := encodes_of_encoderCall hcall hencodes
          have hitem := hfits item List.mem_cons_self
          have hcalls' : ∀ item ∈ items.dropLast, item ≠ .emit .call := by
            intro i hi
            refine hcalls i ?_
            cases items with
            | nil => cases hi
            | cons i' items => exact List.mem_cons_of_mem _ hi
          obtain ⟨hret, hfirst⟩ := h.item hframe hitem hcall m.regs
          obtain ⟨clobber, p', hproceeds, hp'⟩ := ih
            (fun i hi => hfits i (List.mem_cons_of_mem _ hi)) hcalls' hfirst (pre ++ call.emit)
          rw [List.append_assoc, List.append_assoc] at hproceeds
          refine ⟨clobber, p', .head (processorStep_emit call hret) hproceeds, ?_⟩
          rw [execItem_clobber hcall m m.regs clobber] at hp'
          exact hp'
      | none =>
          -- the call, which is the last piece
          obtain rfl := encoderCall_eq_none hcall
          obtain ⟨field, hfield, rfl⟩ := hencodes
          cases items with
          | cons i items => exact absurd rfl (hcalls _ List.mem_cons_self)
          | nil =>
              cases hrest
              rw [List.nil_append, List.append_nil]
              exact ⟨_, _, .single (processorStep_call hfield), h.call hframe hrsp hcallee _⟩

end Execute

/-! ## The code of an action -/

theorem getRealReg_mem (i : ℤ) : getRealReg i ∈ realRegs := by
  unfold getRealReg
  by_cases hi : i.toNat < realRegs.length
  · rw [List.getD_eq_getElem _ _ hi]
    exact List.getElem_mem hi
  · rw [List.getD_eq_default _ _ (Nat.le_of_not_lt hi)]
    decide

/-- The registers of the allocator are others than those of the frame. -/
theorem ne_of_mem_realRegs : ∀ reg ∈ realRegs, reg ≠ .RBP ∧ reg ≠ .RSP := by decide

theorem mem_realRegs_of_sysV : ∀ reg ∈ sysVArgRegs, reg ∈ realRegs := by decide

/-- What the code of an action is like: it writes registers of the allocator, and only its last
instruction may be a call. -/
structure ActionCode (es : List Emit) : Prop where
  target : ∀ e ∈ es, ∀ reg, e.target = some reg → reg ∈ realRegs
  calls : ∀ e ∈ es.dropLast, e ≠ .call

section Action

variable {cg cg' : Codegen}

/-- The code of moves other than calls. -/
theorem moves_code {ms : List Move} (hms : ∀ m ∈ ms, ∀ es, m ≠ .call es)
    (hrun : run Codegen.moveStep cg ms = some cg') :
    ∃ es, cg'.code = cg.code ++ es ∧
      ∀ e ∈ es, e ≠ .call ∧ ∀ reg, e.target = some reg → reg ∈ realRegs := by
  induction ms generalizing cg with
  | nil =>
      obtain rfl := Option.some.inj hrun
      exact ⟨[], (List.append_nil _).symm, fun e he => (by cases he)⟩
  | cons m ms ih =>
      obtain ⟨cg₁, hm, hrest⟩ := run_cons_eq_some.mp hrun
      obtain ⟨-, rfl⟩ := moveStep_eq_some.mp hm
      obtain ⟨es, hcode, hes⟩ := ih (fun m hm => hms m (List.mem_cons_of_mem _ hm)) hrest
      refine ⟨cg.emitted m ++ es, by rw [hcode, code_move, List.append_assoc], fun e he => ?_⟩
      rcases List.mem_append.mp he with he | he
      · cases m with
        | bump v => cases he
        | create r => cases he
        | evict v =>
            obtain rfl := List.mem_singleton.mp he
            exact ⟨Emit.noConfusion, fun reg hreg => (by cases hreg)⟩
        | reload v r =>
            obtain rfl := List.mem_singleton.mp he
            exact ⟨Emit.noConfusion, fun reg hreg => Option.some.inj hreg ▸ getRealReg_mem r⟩
        | call es => exact absurd rfl (hms _ List.mem_cons_self es)
      · exact hes e he

/-- The moves of the allocator's functions, apart from the call. -/
theorem allocMoves_ne_call : ∀ m ∈ cg.allocMoves, ∀ es, m ≠ .call es := by
  unfold Codegen.allocMoves
  cases cg.freeReg with
  | some i => exact fun m hm => (by cases hm)
  | none => exact fun m hm es => List.mem_singleton.mp hm ▸ Move.noConfusion

theorem ActionCode.of_moves {es : List Emit}
    (h : ∀ e ∈ es, e ≠ .call ∧ ∀ reg, e.target = some reg → reg ∈ realRegs) : ActionCode es where
  target e he := (h e he).2
  calls e he := (h e (List.dropLast_subset _ he)).1

/-- The code of a call. -/
theorem PassesArguments.actionCode {args : List ℕ} (h : PassesArguments cg cg' args) :
    ∃ es, cg'.code = cg.code ++ es ∧ ActionCode es := by
  obtain ⟨saves, passes, hcode, hsaves, hpasses, -⟩ := h
  have hsave : ∀ e ∈ saves, e ≠ .call ∧ e.target = none := by
    intro e he
    have hstore := hsaves e he
    cases e with
    | storeRegRBP64 reg disp => exact ⟨Emit.noConfusion, rfl⟩
    | _ => cases hstore
  have hpass : ∀ e ∈ passes, e ≠ .call ∧ ∀ reg, e.target = some reg → reg ∈ realRegs := by
    intro e he
    have htarget : e.target ∈ (sysVArgRegs.take args.length).map some :=
      hpasses ▸ List.mem_map_of_mem he
    obtain ⟨reg, hreg, heq⟩ := List.mem_map.mp htarget
    refine ⟨?_, fun reg' hreg' => ?_⟩
    · rintro rfl
      cases heq
    · obtain rfl := Option.some.inj (heq.trans hreg')
      exact mem_realRegs_of_sysV reg (List.mem_of_mem_take hreg)
  refine ⟨saves ++ passes ++ [.call], by rw [hcode]; simp only [List.append_assoc], ?_, ?_⟩
  · intro e he reg hreg
    rcases List.mem_append.mp he with he | he
    · rcases List.mem_append.mp he with he | he
      · rw [(hsave e he).2] at hreg
        cases hreg
      · exact (hpass e he).2 reg hreg
    · obtain rfl := List.mem_singleton.mp he
      cases hreg
  · intro e he
    rw [List.dropLast_concat] at he
    rcases List.mem_append.mp he with he | he
    · exact (hsave e he).1
    · exact (hpass e he).1

/-- Whether an action is a call of a function. -/
def SessionOp.isCall : SessionOp → Bool
  | .functionCall _ _ _ => true
  | _ => false

/-- **The code that an action appends.** -/
theorem step_code {s s' : Session} (h : s.Good) {op : SessionOp} (ha : s.Allowed op)
    (hstep : s.step op = some s') : ∃ es, s'.cg.code = s.cg.code ++ es ∧ ActionCode es ∧
      (op.isCall = false → ∀ e ∈ es, e ≠ .call) := by
  have hmoves : ∀ {ms : List Move} {cg : Codegen}, (∀ m ∈ ms, ∀ es, m ≠ .call es) →
      run Codegen.moveStep s.cg ms = some cg → ∃ es, cg.code = s.cg.code ++ es ∧ ActionCode es ∧
        (op.isCall = false → ∀ e ∈ es, e ≠ .call) := by
    intro ms cg hms hrun
    obtain ⟨es, hcode, hes⟩ := moves_code hms hrun
    exact ⟨es, hcode, .of_moves hes, fun _ e he => (hes e he).1⟩
  cases op with
  | newVar =>
      obtain ⟨cg, hcg, rfl⟩ := Option.map_eq_some_iff.mp hstep
      refine hmoves ?_ ((codegenNewVar_eq_run h.inv).symm.trans hcg)
      intro m hm es
      rcases List.mem_append.mp hm with hm | hm
      · exact allocMoves_ne_call m hm es
      · exact List.mem_singleton.mp hm ▸ Move.noConfusion
  | ref v =>
      obtain ⟨⟨reg, cg⟩, hcg, rfl⟩ := Option.map_eq_some_iff.mp hstep
      rw [callDepth, variableRef_eq_run h.inv 3 ha] at hcg
      obtain ⟨cg, hrun, heq⟩ := Option.map_eq_some_iff.mp hcg
      obtain ⟨rfl, rfl⟩ := Prod.mk.inj heq
      refine hmoves ?_ hrun
      intro m hm es
      unfold Codegen.refMoves at hm
      split_ifs at hm
      · exact List.mem_singleton.mp hm ▸ Move.noConfusion
      · rcases List.mem_append.mp hm with hm | hm
        · exact allocMoves_ne_call m hm es
        · exact List.mem_singleton.mp hm ▸ Move.noConfusion
  | write value =>
      obtain ⟨⟨v, reg⟩, hgrant, rfl⟩ := Option.map_eq_some_iff.mp hstep
      exact hmoves (fun m hm => (by cases hm)) (run_nil s.cg)
  | store v =>
      obtain ⟨cg, hcg, rfl⟩ := Option.map_eq_some_iff.mp hstep
      refine hmoves ?_ ((variableStore_eq_run h.inv 1 ha).symm.trans hcg)
      intro m hm es
      unfold Codegen.storeMoves at hm
      split_ifs at hm
      · exact List.mem_singleton.mp hm ▸ Move.noConfusion
      · rcases List.mem_append.mp hm with hm | hm
        · exact allocMoves_ne_call m hm es
        · rcases List.mem_pair.mp hm with rfl | rfl <;> exact Move.noConfusion
  | popBlock =>
      obtain ⟨cg, hcg, rfl⟩ := Option.map_eq_some_iff.mp hstep
      refine hmoves ?_ ((codegenPopBlock_eq_run h.inv).symm.trans hcg)
      intro m hm es
      obtain ⟨v, -, rfl⟩ := List.mem_map.mp hm
      exact Move.noConfusion
  | functionCall label args clobber =>
      obtain ⟨r, hr, rfl⟩ := Option.map_eq_some_iff.mp hstep
      obtain ⟨es, hcode, hes⟩ := (archFunctionCall_passes h.inv label ha.1 ha.2 hr).actionCode
      exact ⟨es, hcode, hes, fun hcall => (by cases hcall)⟩

end Action

/-! ## Actions with what the functions called really leave behind -/

/-- An action where a function called leaves other registers behind. -/
def SessionOp.withClobber (clobber : Reg64 → UInt64) : SessionOp → SessionOp
  | .functionCall label args _ => .functionCall label args clobber
  | op => op

/-- A session with another machine. -/
def Session.withMachine (s : Session) (m : Machine) : Session := { s with machine := m }

section Clobber

variable {s s' : Session} {op : SessionOp} {m : Machine}

theorem execItems_map (clobber : Reg64 → UInt64) (es : List Emit) :
    m.execItems clobber (es.map .emit) = m.execAll clobber es := List.foldl_map

/-- Registers are left behind by calls only. -/
theorem execAll_clobber {es : List Emit} (hes : ∀ e ∈ es, e ≠ .call)
    (clobber clobber' : Reg64 → UInt64) : m.execAll clobber es = m.execAll clobber' es := by
  refine List.foldl_ext _ _ _ fun m e he => ?_
  cases e with
  | call => exact absurd rfl (hes _ he)
  | _ => rfl

theorem allowed_withClobber (m : Machine) (clobber : Reg64 → UInt64) (ha : s.Allowed op) :
    (s.withMachine m).Allowed (op.withClobber clobber) := by
  cases op <;> exact ha

/-- **An action on another machine.**  The allocator does the same, and the machine executes the
code of the action. -/
theorem step_withMachine (h : s.Good) (ha : s.Allowed op) (hstep : s.step op = some s')
    (clobber : Reg64 → UInt64) :
    (s.withMachine m).step (op.withClobber clobber) =
      some (s'.withMachine (m.execItems clobber (s.items op s'))) := by
  obtain ⟨es, hcode, -, hcalls⟩ := step_code h ha hstep
  have hdrop : s'.cg.code.drop s.cg.code.length = es := by rw [hcode, List.drop_left]
  have hadvance : ∀ clobber', (op.isCall = false ∨ clobber' = clobber) →
      m.execAll clobber' (s'.cg.code.drop s.cg.code.length) =
        m.execItems clobber ((s'.cg.code.drop s.cg.code.length).map .emit) := by
    intro clobber' hor
    rw [execItems_map, hdrop]
    rcases hor with hcall | rfl
    · exact execAll_clobber (hcalls hcall) clobber' clobber
    · rfl
  cases op with
  | newVar =>
      obtain ⟨cg, hcg, rfl⟩ := Option.map_eq_some_iff.mp hstep
      refine Option.map_eq_some_iff.mpr ⟨cg, hcg, ?_⟩
      exact congrArg (fun m => (⟨cg, m, s.value, none⟩ : Session)) (hadvance m.regs (.inl rfl))
  | ref v =>
      obtain ⟨⟨reg, cg⟩, hcg, rfl⟩ := Option.map_eq_some_iff.mp hstep
      refine Option.map_eq_some_iff.mpr ⟨(reg, cg), hcg, ?_⟩
      exact congrArg (fun m => (⟨cg, m, s.value, some (v, reg)⟩ : Session))
        (hadvance m.regs (.inl rfl))
  | write value =>
      obtain ⟨⟨v, reg⟩, hgrant, rfl⟩ := Option.map_eq_some_iff.mp hstep
      refine Option.map_eq_some_iff.mpr ⟨(v, reg), hgrant, ?_⟩
      have hitems : ∀ s', s.items (.write value) s' = [.const (getRealReg reg) value] := by
        intro s'
        unfold Session.items
        rw [hgrant]
      rw [hitems]
      rfl
  | store v =>
      obtain ⟨cg, hcg, rfl⟩ := Option.map_eq_some_iff.mp hstep
      refine Option.map_eq_some_iff.mpr ⟨cg, hcg, ?_⟩
      exact congrArg (fun m => (⟨cg, m, s.value, none⟩ : Session)) (hadvance m.regs (.inl rfl))
  | popBlock =>
      obtain ⟨cg, hcg, rfl⟩ := Option.map_eq_some_iff.mp hstep
      refine Option.map_eq_some_iff.mpr ⟨cg, hcg, ?_⟩
      exact congrArg (fun m => (⟨cg, m, s.value, none⟩ : Session)) (hadvance m.regs (.inl rfl))
  | functionCall label args clobber' =>
      obtain ⟨r, hr, rfl⟩ := Option.map_eq_some_iff.mp hstep
      refine Option.map_eq_some_iff.mpr ⟨r, hr, ?_⟩
      exact congrArg (fun m => (⟨r.1, m, s.value, none⟩ : Session)) (hadvance clobber (.inr rfl))

/-- The pieces of code of an action. -/
theorem items_spec (h : s.Good) (ha : s.Allowed op) (hstep : s.step op = some s') :
    (∀ item ∈ s.items op s', ∀ reg, item.target = some reg → reg ∈ realRegs) ∧
      (∀ item ∈ (s.items op s').dropLast, item ≠ .emit .call) ∧
      ∀ e, .emit e ∈ s.items op s' → e ∈ s'.cg.code := by
  obtain ⟨es, hcode, hes, -⟩ := step_code h ha hstep
  have hdrop : s'.cg.code.drop s.cg.code.length = es := by rw [hcode, List.drop_left]
  unfold Session.items
  split
  case h_1 value v reg hgrant =>
    refine ⟨fun item hitem reg' htarget => ?_, fun item hitem => (by cases hitem), fun e he => ?_⟩
    · obtain rfl := List.mem_singleton.mp hitem
      exact Option.some.inj htarget ▸ getRealReg_mem reg
    · cases List.mem_singleton.mp he
  case h_2 =>
    rw [hdrop, ← List.map_dropLast]
    refine ⟨fun item hitem => ?_, fun item hitem => ?_, fun e he => ?_⟩
    · obtain ⟨e, he, rfl⟩ := List.mem_map.mp hitem
      exact hes.target e he
    · obtain ⟨e, he, rfl⟩ := List.mem_map.mp hitem
      exact fun heq => hes.calls e he (CodeItem.emit.inj heq)
    · obtain ⟨e', he', heq⟩ := List.mem_map.mp he
      obtain rfl := CodeItem.emit.inj heq
      exact hcode ▸ List.mem_append_right _ he'

end Clobber

/-! ## Sessions -/

theorem Encoded.of_append {items items' : List CodeItem} {bytes : List UInt8}
    (h : Encoded (items ++ items') bytes) :
    ∃ first rest, bytes = first ++ rest ∧ Encoded items first ∧ Encoded items' rest := by
  induction items generalizing bytes with
  | nil => exact ⟨[], bytes, rfl, .nil, h⟩
  | cons item items ih =>
      rw [List.cons_append] at h
      cases h with
      | cons hitem hrest =>
          obtain ⟨first, rest, rfl, hfirst, hlast⟩ := ih hrest
          exact ⟨_, rest, (List.append_assoc ..).symm, .cons hitem hfirst, hlast⟩

section Sessions

variable {s s' : Session} {ops : List SessionOp}

theorem Session.code_cons {op : SessionOp} {t : Session} (hstep : s.step op = some t) :
    s.code (op :: ops) = s.items op t ++ t.code ops := by
  rw [Session.code, hstep]

/-- The code that has been emitted stays. -/
theorem run_extends_code (h : s.Good) (hall : AllSteps Session.step Session.Allowed s ops)
    (hrun : run Session.step s ops = some s') : s.cg.code <+: s'.cg.code := by
  induction ops generalizing s with
  | nil =>
      obtain rfl := Option.some.inj hrun
      exact List.prefix_rfl
  | cons op ops ih =>
      obtain ⟨t, hstep, hrest⟩ := run_cons_eq_some.mp hrun
      obtain ⟨es, hcode, -⟩ := step_code h hall.1 hstep
      exact (hcode ▸ List.prefix_append _ _).trans
        (ih (h.step hall.1 hstep) (hall.2 t hstep) hrest)

/-- The pieces of code of a session. -/
theorem code_spec (h : s.Good) (hall : AllSteps Session.step Session.Allowed s ops)
    (hrun : run Session.step s ops = some s') : ∀ item ∈ s.code ops,
      (∀ reg, item.target = some reg → reg ∈ realRegs) ∧
        ∀ e, item = .emit e → e ∈ s'.cg.code := by
  induction ops generalizing s with
  | nil => exact fun item hitem => (by cases hitem)
  | cons op ops ih =>
      obtain ⟨t, hstep, hrest⟩ := run_cons_eq_some.mp hrun
      have ht := h.step hall.1 hstep
      obtain ⟨htarget, -, hemitted⟩ := items_spec h hall.1 hstep
      rw [Session.code_cons hstep]
      intro item hitem
      rcases List.mem_append.mp hitem with hitem | hitem
      · refine ⟨htarget item hitem, ?_⟩
        rintro e rfl
        exact (run_extends_code ht (hall.2 t hstep) hrest).subset (hemitted e hitem)
      · exact ih ht (hall.2 t hstep) hrest item hitem

theorem run_slotCode (h : s.Good) (hc : SlotCode s.cg)
    (hall : AllSteps Session.step Session.Allowed s ops)
    (hrun : run Session.step s ops = some s') : SlotCode s'.cg := by
  have hboth : s'.Good ∧ SlotCode s'.cg :=
    run_invariant_of_allSteps (I := fun s => s.Good ∧ SlotCode s.cg)
      (fun s op s' ⟨h, hc⟩ ha hstep => by
        obtain ⟨ms, hmoves, -⟩ := step_moves h ha hstep
        exact ⟨h.step ha hstep, hc.run h.inv hmoves⟩)
      ⟨h, hc⟩ hall hrun
  exact hboth.2

/-- **The code of a session fits its frame**, if it loads no register from `R8` on. -/
theorem code_fits (h : s.Good) (hc : SlotCode s.cg)
    (hall : AllSteps Session.step Session.Allowed s ops)
    (hrun : run Session.step s ops = some s') (h' : s'.Good)
    (hplain : ∀ reg disp, .loadRegRBP64 reg disp ∈ s'.cg.code → kReg64Number reg ≤ 7) :
    ∀ item ∈ s.code ops, item.Fits s'.cg.frameSize := by
  intro item hitem
  obtain ⟨htarget, hemitted⟩ := code_spec h hall hrun item hitem
  refine ⟨fun e disp he hdisp => ?_, fun reg hreg => ne_of_mem_realRegs reg (htarget reg hreg),
    fun reg disp he => hplain reg disp (hemitted _ he)⟩
  obtain ⟨v, hv, hpos, rfl⟩ :=
    (run_slotCode h hc hall hrun).sound e (hemitted e he) disp hdisp
  refine ⟨(s'.cg.vars v).stackPos.toNat, ?_⟩
  rcases h'.inv.slot v hv with hnone | hslot <;> omega

variable {callee : UInt64 → Processor → Processor} {rbp rsp : UInt64} {frame : ℕ}

/-- **Executing a session**: the processor keeps up with the machine of the session whose calls
leave behind what the functions called really do. -/
theorem execute_session (memLocation : UInt64) (hcallee : KeepsFrame callee)
    (hframe : frame ≤ 16) (hrsp : 8 * frame ≤ (rbp - rsp).toNat) {m : Machine} {p : Processor}
    {bytes : List UInt8} (hs : s.Good) (hm : (s.withMachine m).Good)
    (hall : AllSteps Session.step Session.Allowed s ops)
    (hrun : run Session.step s ops = some s') (hbytes : Encoded (s.code ops) bytes)
    (hfits : ∀ item ∈ s.code ops, item.Fits frame) (h : InFrame frame rbp rsp m p)
    (pre : List UInt8) : ∃ m' p',
      Proceeds callee memLocation (pre ++ bytes) (pre.length, p) ((pre ++ bytes).length, p') ∧
      InFrame frame rbp rsp m' p' ∧ (s'.withMachine m').Good := by
  induction ops generalizing s m p bytes pre with
  | nil =>
      obtain rfl := Option.some.inj hrun
      cases hbytes
      exact ⟨m, p, by rw [List.append_nil]; exact .refl, h, hm⟩
  | cons op ops ih =>
      obtain ⟨t, hstep, hrest⟩ := run_cons_eq_some.mp hrun
      rw [Session.code_cons hstep] at hbytes hfits
      obtain ⟨first, rest, rfl, hfirst, hlast⟩ := hbytes.of_append
      obtain ⟨-, hcalls, -⟩ := items_spec hs hall.1 hstep
      obtain ⟨clobber, p₁, hproceeds, hp₁⟩ := h.execute memLocation hcallee hframe hrsp
        hfirst (fun item hitem => hfits item (List.mem_append_left _ hitem)) hcalls pre rest
      have ht := hm.step (allowed_withClobber m clobber hall.1)
        (step_withMachine hs hall.1 hstep clobber)
      obtain ⟨m', p', hproceeds', hp', hgood⟩ := ih (hs.step hall.1 hstep) ht (hall.2 t hstep)
        hrest hlast (fun item hitem => hfits item (List.mem_append_right _ hitem)) hp₁ (pre ++ first)
      rw [List.append_assoc] at hproceeds'
      exact ⟨m', p', hproceeds.trans hproceeds', hp', hgood⟩

end Sessions

/-- **The machine code of a session.**  A client brings variables to registers, writes constants
to them, stores them and calls functions, and the processor executes the bytes this emits, calls
included, whatever their labels are.  If at most sixteen slots are given out, the code has at most
2000 bytes, the frame between `RSP` and `RBP` has room for the slots, the functions called keep
the frame, and no slot is loaded to a register from `R8` on, then all the code is stored in
`cg->buffer`, the processor gets to the end of the code, `RBP` and `RSP` are what they were, and
every variable that has been written is in its register or its slot. -/
theorem session_executes (registerCount : ℕ) (h7 : 7 ≤ registerCount) (h10 : registerCount ≤ 10)
    (argCount : ℕ) (hargs : argCount ≤ 6) (p : Processor) (ops : List SessionOp)
    (hall : AllSteps Session.step Session.Allowed
      (Session.start registerCount argCount p.machine) ops)
    (s : Session)
    (hrun : run Session.step (Session.start registerCount argCount p.machine) ops = some s)
    (hframe : s.cg.frameSize ≤ 16)
    (hroom : 8 * s.cg.frameSize ≤ (p.regs .RBP - p.regs .RSP).toNat)
    (hplain : ∀ reg disp, .loadRegRBP64 reg disp ∈ s.cg.code → kReg64Number reg ≤ 7)
    (bytes : List UInt8)
    (hbytes : Encoded ((Session.start registerCount argCount p.machine).code ops) bytes)
    (hsize : bytes.length ≤ 2000)
    (callee : UInt64 → Processor → Processor) (hcallee : KeepsFrame callee)
    (memLocation : UInt64) :
    PushesStored 1000
      (((Session.start registerCount argCount p.machine).code ops).flatMap CodeItem.pushes) ∧
    ∃ p', Proceeds callee memLocation bytes (0, p) (bytes.length, p') ∧
      p'.regs .RBP = p.regs .RBP ∧ p'.regs .RSP = p.regs .RSP ∧
      ∀ v, HasHome s.cg p'.machine s.value v := by
  have hstart := Session.start_good h10 (Or.inr ⟨h7, hargs⟩) p.machine
  have hend : s.Good :=
    run_invariant_of_allSteps (fun _ _ _ hs ha hstep => hs.step ha hstep) hstart hall hrun
  have hfits := code_fits hstart (start_slotCode h10 (Or.inr ⟨h7, hargs⟩) p.machine).1 hall hrun hend hplain
  have hin : InFrame s.cg.frameSize (p.regs .RBP) (p.regs .RSP) p.machine p := by
    refine ⟨rfl, fun k _ _ => rfl, rfl, rfl⟩
  obtain ⟨m', p', hproceeds, hp', hgood⟩ := execute_session memLocation hcallee hframe
    hroom hstart hstart hall hrun hbytes hfits hin []
  refine ⟨hbytes.stored hsize, p', hproceeds, hp'.rbp, hp'.rsp, fun v w hw => ?_⟩
  have hhome : if (s.cg.vars v).reg ≥ 0 then m'.regs (archGetRealReg s.cg v) = w
      else (s.cg.vars v).stackPos > 0 ∧ m'.slots (-(s.cg.vars v).stackPos * 8) = w :=
    hgood.home v w hw
  have hv : v < s.cg.nextVar := by
    by_contra hge
    have hnone := hend.fresh v (Nat.le_of_not_lt hge)
    rw [hnone] at hw
    cases hw
  split_ifs at hhome ⊢ with hreg
  · exact (congrFun hp'.regs _).trans hhome
  · obtain ⟨hpos, hslot⟩ := hhome
    refine ⟨hpos, ?_⟩
    have hle : (s.cg.vars v).stackPos ≤ s.cg.frameSize := by
      rcases hend.inv.slot v hv with h1 | h1 <;> omega
    have hread := hp'.slots (s.cg.vars v).stackPos.toNat (by omega) (by omega)
    unfold frameSlot at hread
    rw [Int.toNat_of_nonneg (by omega), ← hp'.rbp] at hread
    exact hread.trans hslot

/-- A processor with a frame of eight slots. -/
def callProcessor : Processor where
  regs reg := if reg = .RBP then 0x2000 else if reg = .RSP then 0x1FC0 else 3
  zero := false
  memory _ := 0

/-- A function of two arguments that calls another one, with a variable of its own written before
and after the call. -/
def callOps : List SessionOp :=
  [.newVar, .ref 2, .write 5, .store 1, .ref 1, .functionCall {} [2, 0, 2] (fun _ => 0), .ref 2,
    .write 6, .ref 0, .popBlock, .ref 1]

theorem session_executes_callOps :
    ∃ s p', run Session.step (Session.start 7 2 callProcessor.machine) callOps = some s ∧
      Proceeds (fun _ p => p.setReg .RAX 9) 0x400000
        (((Session.start 7 2 callProcessor.machine).code callOps).flatMap CodeItem.pushed)
        (0, callProcessor) p' ∧
      ∀ v, HasHome s.cg p'.2.machine s.value v := by
  have hall : AllSteps Session.step Session.Allowed
      (Session.start 7 2 callProcessor.machine) callOps := by decide +kernel
  have hend : (run Session.step (Session.start 7 2 callProcessor.machine) callOps).any
      (fun s => s.cg.frameSize ≤ 8 &&
        s.cg.code.all (fun e => e.target.all (fun reg => kReg64Number reg ≤ 7))) := by
    decide +kernel
  obtain ⟨s, hrun, hboth⟩ := (Option.any_eq_true _ _).mp hend
  rw [Bool.and_eq_true, decide_eq_true_iff, List.all_eq_true] at hboth
  obtain ⟨hframe, htargets⟩ := hboth
  have hroom : (callProcessor.regs .RBP - callProcessor.regs .RSP).toNat = 64 := by decide
  obtain ⟨-, p', hproceeds, -, -, hhome⟩ := session_executes 7 (by decide) (by decide) 2 (by decide)
    callProcessor callOps hall s hrun (by omega) (by omega)
    (fun reg disp he => of_decide_eq_true (htargets _ he)) _ (encoded_pushed _)
    (by decide +kernel) (fun _ p => p.setReg .RAX 9) ⟨fun _ _ => rfl, fun _ _ => rfl, fun _ _ _ _ => rfl⟩ 0x400000
  exact ⟨s, _, hrun, hproceeds, hhome⟩
