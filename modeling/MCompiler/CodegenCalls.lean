/-
# Passing arguments

`arch_functionCall` first stores every variable that is in a register, and then fills
the argument registers one after the other: an argument is loaded from its slot the
first time, and copied from the register it was loaded into when it is passed again.

`archFunctionCall_passes`: under the allocator's invariant the code emitted saves the
variables first, writes each argument register once, and leaves the arguments' values in
the argument registers of the System V calling convention.
-/
import Mathlib.Data.List.GetD
import MCompiler.CodegenTables

open Runs

/-! ## What the code of a call has to do -/

/-- `%rdi, %rsi, %rdx, %rcx, %r8, %r9`. -/
def sysVArgRegs : List Reg64 := [.RDI, .RSI, .RDX, .RCX, .R8, .R9]

/-- The register an instruction writes. -/
def Emit.target : Emit → Option Reg64
  | .loadRegRBP64 reg _ => some reg
  | .storeReg64 _ target => some target
  | .storeRegRBP64 _ _ => none
  | .call => none

/-- An instruction that stores a register to a slot. -/
def Emit.IsStore : Emit → Prop
  | .storeRegRBP64 _ _ => True
  | _ => False

/-- The value of a variable: what its register holds, or its slot when it has none. -/
def Codegen.valueIn (cg : Codegen) (machine : Machine) (v : ℕ) : UInt64 :=
  if 0 ≤ (cg.vars v).reg then machine.regs (archGetRealReg cg v)
  else machine.slots (-(cg.vars v).stackPos * 8)

/-- The code by which a call takes `cg` to `cg'`: stores that save every variable to its
slot, then one instruction for each argument register, then the call.  At the call the
argument registers hold the values the arguments had before. -/
def PassesArguments (cg cg' : Codegen) (args : List ℕ) : Prop :=
  ∃ saves passes, cg'.code = cg.code ++ saves ++ passes ++ [.call] ∧
    (∀ e ∈ saves, e.IsStore) ∧
    passes.map Emit.target = (sysVArgRegs.take args.length).map some ∧
    ∀ (clobber : Reg64 → UInt64) (machine : Machine),
      let saved := machine.execAll clobber saves
      let atCall := saved.execAll clobber passes
      (∀ v < cg.nextVar, 1 ≤ (cg'.vars v).stackPos ∧
        saved.slots (-(cg'.vars v).stackPos * 8) = cg.valueIn machine v) ∧
      atCall.slots = saved.slots ∧
      ∀ i v, args[i]? = some v →
        atCall.regs (sysVArgRegs.getD i .RAX) = cg.valueIn machine v

/-! ## The loop over the arguments -/

theorem getRealReg_argRegs : ∀ i < 6,
    getRealReg (argRegs.getD i 0 : ℕ) = sysVArgRegs.getD i .RAX := by decide

theorem sysVArgRegs_inj : ∀ i < 6, ∀ j < 6,
    sysVArgRegs.getD i .RAX = sysVArgRegs.getD j .RAX → i = j := by decide

/-- An instruction that writes a register leaves the slots and the other registers
alone. -/
theorem exec_of_target {e : Emit} {reg : Reg64} (h : e.target = some reg)
    (clobber : Reg64 → UInt64) (machine : Machine) :
    (machine.exec clobber e).slots = machine.slots ∧
      ∀ other, other ≠ reg → (machine.exec clobber e).regs other = machine.regs other := by
  cases e with
  | loadRegRBP64 r disp =>
      obtain rfl := Option.some.inj h
      exact ⟨rfl, fun other hne => Function.update_of_ne hne ..⟩
  | storeReg64 source r =>
      obtain rfl := Option.some.inj h
      exact ⟨rfl, fun other hne => Function.update_of_ne hne ..⟩
  | storeRegRBP64 => cases h
  | call => cases h

theorem execAll_slots_of_target (clobber : Reg64 → UInt64) {es : List Emit}
    {regs : List Reg64} (h : es.map Emit.target = regs.map some) (machine : Machine) :
    (machine.execAll clobber es).slots = machine.slots := by
  induction es generalizing machine regs with
  | nil => rfl
  | cons e es ih =>
      rcases regs with _ | ⟨reg, regs⟩
      · cases h
      · obtain ⟨he, hes⟩ := List.cons.inj h
        exact (ih hes _).trans (exec_of_target he clobber machine).1

/-- The state `cg'` and the code `passes` after `k` rounds, started in `cg` with every
variable out of registers. -/
structure Passed (cg : Codegen) (args : List ℕ) (k : ℕ) (cg' : Codegen)
    (passes : List Emit) : Prop where
  code : cg'.code = cg.code ++ passes
  target : passes.map Emit.target = (sysVArgRegs.take (min k args.length)).map some
  stackPos : ∀ v, (cg'.vars v).stackPos = (cg.vars v).stackPos
  /-- A variable that has a register is an argument passed in it before. -/
  reg : ∀ v ∈ args, (cg'.vars v).reg = -1 ∨
    ∃ j < k, args[j]? = some v ∧ (cg'.vars v).reg = (argRegs.getD j 0 : ℕ)
  /-- The registers filled hold the arguments. -/
  regs : ∀ (clobber : Reg64 → UInt64) (machine : Machine) j v, j < k → args[j]? = some v →
    (machine.execAll clobber passes).regs (sysVArgRegs.getD j .RAX) =
      machine.slots (-(cg.vars v).stackPos * 8)

section Rounds

variable {cg cg' : Codegen} {args : List ℕ} {k : ℕ} {passes : List Emit}

/-- A round with an argument emits one instruction that writes its register, and the
registers filled before stay as they are. -/
theorem Passed.emit (hp : Passed cg args k cg' passes) (hk : k < 6) {v : ℕ}
    (hget : args[k]? = some v) {cg'' : Codegen} {e : Emit}
    (hcode : cg''.code = cg'.code ++ [e]) (htarget : e.target = some (sysVArgRegs.getD k .RAX))
    (hslot : ∀ w, (cg''.vars w).stackPos = (cg'.vars w).stackPos)
    (hreg : ∀ w ∈ args, (cg''.vars w).reg = (cg'.vars w).reg ∨
      w = v ∧ (cg''.vars w).reg = (argRegs.getD k 0 : ℕ))
    (hvalue : ∀ (clobber : Reg64 → UInt64) (machine : Machine),
      ((machine.execAll clobber passes).exec clobber e).regs (sysVArgRegs.getD k .RAX) =
        machine.slots (-(cg.vars v).stackPos * 8)) :
    Passed cg args (k + 1) cg'' (passes ++ [e]) := by
  have hlen : k < args.length := (List.getElem?_eq_some_iff.mp hget).1
  constructor
  case code => rw [hcode, hp.code, List.append_assoc]
  case target =>
    have hmin : min (k + 1) args.length = min k args.length + 1 := by omega
    have hmin' : min k args.length = k := by omega
    have hlt : k < sysVArgRegs.length := hk
    have hlast : sysVArgRegs.getD k .RAX = sysVArgRegs[k] :=
      List.getD_eq_getElem _ _ hlt
    rw [hmin, hmin', List.take_succ_eq_append_getElem hlt, List.map_append, List.map_append,
      hp.target, hmin', List.map_singleton, List.map_singleton, htarget, hlast]
  case stackPos => exact fun w => (hslot w).trans (hp.stackPos w)
  case reg =>
    intro w hw
    rcases hreg w hw with hsame | ⟨rfl, hnew⟩
    · rw [hsame]
      rcases hp.reg w hw with hout | ⟨j, hj, hjw, hold⟩
      · exact Or.inl hout
      · exact Or.inr ⟨j, by omega, hjw, hold⟩
    · exact Or.inr ⟨k, by omega, hget, hnew⟩
  case regs =>
    intro clobber machine j w hj hjw
    have hsplit : machine.execAll clobber (passes ++ [e]) =
        (machine.execAll clobber passes).exec clobber e := List.foldl_append
    rw [hsplit]
    by_cases hjk : j = k
    · subst hjk
      rw [hget, Option.some.injEq] at hjw
      exact hjw ▸ hvalue clobber machine
    · have hne : sysVArgRegs.getD j .RAX ≠ sysVArgRegs.getD k .RAX := by
        intro heq
        exact hjk (sysVArgRegs_inj j (by omega) k hk heq)
      rw [(exec_of_target htarget clobber _).2 _ hne]
      exact hp.regs clobber machine j w (by omega) hjw

/-- One round of the loop. -/
theorem Passed.round (hp : Passed cg args k cg' passes) (hk : k < 6)
    (hargs : ∀ v ∈ args, 1 ≤ (cg.vars v).stackPos) :
    ∃ cg'' passes', passArgument args cg' k = some cg'' ∧ Passed cg args (k + 1) cg'' passes' := by
  unfold passArgument
  rcases hget : args[k]? with _ | v
  -- the arguments are used up
  · have hlen : args.length ≤ k := List.getElem?_eq_none_iff.mp hget
    refine ⟨cg', passes, rfl, hp.code, ?_, hp.stackPos, ?_, ?_⟩
    · rw [show min (k + 1) args.length = min k args.length by omega]
      exact hp.target
    · intro w hw
      rcases hp.reg w hw with hout | ⟨j, hj, hjw, hold⟩
      · exact Or.inl hout
      · exact Or.inr ⟨j, by omega, hjw, hold⟩
    · intro clobber machine j w hj hjw
      have hlt := (List.getElem?_eq_some_iff.mp hjw).1
      exact hp.regs clobber machine j w (by omega) hjw
  · have hmem : v ∈ args := List.mem_of_getElem? hget
    have hreal := getRealReg_argRegs k hk
    dsimp only
    split_ifs with hreg
    -- the first time: the argument comes from its slot
    · have hself : (cg'.setReg v (argRegs.getD k 0 : ℕ)).vars v =
          ⟨(argRegs.getD k 0 : ℕ), (cg'.vars v).stackPos⟩ := Function.update_self ..
      have hother : ∀ w, w ≠ v →
          (cg'.setReg v (argRegs.getD k 0 : ℕ)).vars w = cg'.vars w := fun w hw =>
        Function.update_of_ne hw ..
      have hpos : 0 < ((cg'.setReg v (argRegs.getD k 0 : ℕ)).vars v).stackPos := by
        rw [hself]
        show 0 < (cg'.vars v).stackPos
        rw [hp.stackPos]
        exact hargs v hmem
      refine ⟨_, _, if_pos hpos, hp.emit hk hget rfl ?_ ?_ ?_ ?_⟩
      · unfold archGetRealReg
        rw [hself]
        exact congrArg some hreal
      · intro w
        show ((cg'.setReg v (argRegs.getD k 0 : ℕ)).vars w).stackPos = _
        by_cases hwv : w = v
        · rw [hwv, hself]
        · rw [hother w hwv]
      · intro w hw
        show ((cg'.setReg v (argRegs.getD k 0 : ℕ)).vars w).reg = _ ∨ _ ∧
          ((cg'.setReg v (argRegs.getD k 0 : ℕ)).vars w).reg = _
        by_cases hwv : w = v
        · rw [hwv, hself]
          exact Or.inr ⟨rfl, rfl⟩
        · rw [hother w hwv]
          exact Or.inl rfl
      · intro clobber machine
        unfold archGetRealReg
        rw [hself, hreal, ← hp.stackPos v, ← execAll_slots_of_target clobber hp.target machine]
        exact Function.update_self ..
    -- again: it is copied from the register it is in
    · obtain ⟨j, hj, hjv, hjreg⟩ := (hp.reg v hmem).resolve_left hreg
      refine ⟨_, _, rfl, hp.emit hk hget rfl (congrArg some hreal) (fun _ => rfl)
        (fun _ _ => Or.inl rfl) ?_⟩
      intro clobber machine
      unfold archGetRealReg
      rw [hjreg, hreal, getRealReg_argRegs j (by omega), ← hp.regs clobber machine j v hj hjv]
      exact Function.update_self ..

/-- The whole loop. -/
theorem passArguments_passed (hargs : ∀ v ∈ args, 1 ≤ (cg.vars v).stackPos)
    (hout : ∀ v ∈ args, (cg.vars v).reg = -1) {n : ℕ} (hn : n ≤ 6) :
    ∃ cg' passes, (List.range n).foldlM (passArgument args) cg = some cg' ∧
      Passed cg args n cg' passes := by
  induction n with
  | zero =>
      refine ⟨cg, [], rfl, (List.append_nil _).symm, ?_, fun _ => rfl, ?_, ?_⟩
      · rw [Nat.zero_min]
        rfl
      · exact fun v hv => Or.inl (hout v hv)
      · exact fun _ _ j _ hj => absurd hj (Nat.not_lt_zero j)
  | succ n ih =>
      obtain ⟨cg₁, passes, hloop, hp⟩ := ih (by omega)
      obtain ⟨cg₂, passes', hround, hp'⟩ := hp.round (by omega) hargs
      refine ⟨cg₂, passes', ?_, hp'⟩
      rw [List.range_succ, List.foldlM_append, hloop]
      show [n].foldlM (passArgument args) cg₁ = some cg₂
      rw [List.foldlM_cons, hround]
      rfl

end Rounds

/-! ## The whole call -/

section Call

variable {cg cg' : Codegen} {args : List ℕ}

/-- Evictions emit stores. -/
theorem evicts_code {vs : List ℕ} (hrun : run Codegen.moveStep cg (vs.map Move.evict) = some cg') :
    ∃ saves, cg'.code = cg.code ++ saves ∧ ∀ e ∈ saves, e.IsStore := by
  induction vs generalizing cg with
  | nil =>
      rw [List.map_nil, run_nil, Option.some.injEq] at hrun
      exact ⟨[], by simp [hrun], by simp⟩
  | cons v vs ih =>
      obtain ⟨cg₁, hm, hrest⟩ := run_cons_eq_some.mp hrun
      obtain ⟨-, rfl⟩ := moveStep_eq_some.mp hm
      obtain ⟨saves, hcode, hstore⟩ := ih hrest
      refine ⟨cg.emitted (.evict v) ++ saves, ?_, ?_⟩
      · rw [hcode, code_move, List.append_assoc]
      · intro e he
        rcases List.mem_append.mp he with hhead | htail
        · exact List.mem_singleton.mp hhead ▸ trivial
        · exact hstore e htail

/-- Once every variable is out of registers, the values are in the slots. -/
theorem saved_values (h : cg.Inv) {ms : List Move} (hrun : run Codegen.moveStep cg ms = some cg')
    (hempty : cg'.RegistersEmpty) (hnext : cg'.nextVar = cg.nextVar) {saves : List Emit}
    (hcode : cg'.code = cg.code ++ saves) (clobber : Reg64 → UInt64) (machine : Machine) {v : ℕ}
    (hv : v < cg.nextVar) :
    1 ≤ (cg'.vars v).stackPos ∧
      (machine.execAll clobber saves).slots (-(cg'.vars v).stackPos * 8) =
        cg.valueIn machine v := by
  -- the homes of the present values, for the run
  let value : ℕ → Option UInt64 := fun w =>
    if w < cg.nextVar then some (cg.valueIn machine w) else none
  have hfresh : ∀ w, cg.nextVar ≤ w → value w = none := fun w hw => if_neg (by omega)
  have hhome : ∀ w, HasHome cg machine value w := by
    intro w x hx
    obtain ⟨hw, rfl⟩ : w < cg.nextVar ∧ cg.valueIn machine w = x := by
      by_cases hw : w < cg.nextVar
      · exact ⟨hw, Option.some.inj ((if_pos hw).symm.trans hx)⟩
      · rw [hfresh w (by omega)] at hx
        cases hx
    unfold Codegen.valueIn
    by_cases hr : 0 ≤ (cg.vars w).reg
    · rw [if_pos hr, if_pos hr]
    · rw [if_neg hr, if_neg hr]
      have hout : (cg.vars w).reg = -1 := by
        rcases h.reg w hw with h1 | ⟨r, -, h1⟩ <;> omega
      exact ⟨h.home w hw hout, rfl⟩
  obtain ⟨es, hcode', -, hhome'⟩ := moves_hasHome clobber ms h hfresh hhome hrun
  have hes : es = saves := List.append_cancel_left (hcode'.symm.trans hcode)
  have hval := hhome' v (cg.valueIn machine v) (if_pos hv)
  have hreg := hempty.2 v (hnext ▸ hv)
  rw [if_neg (by omega), hes] at hval
  exact hval

/-- **`arch_functionCall` passes its arguments.** -/
theorem archFunctionCall_passes (h : cg.Inv) (label : Label) (hlen : args.length ≤ 6)
    (hargs : ∀ v ∈ args, v < cg.nextVar) {r : Codegen × Label}
    (hcall : archFunctionCall cg label args = some r) : PassesArguments cg r.1 args := by
  unfold archFunctionCall at hcall
  rw [if_pos (Nat.lt_succ_of_le hlen)] at hcall
  have hpop := codegenPopBlock_eq_run h
  unfold codegenPopBlock at hpop
  rw [hpop] at hcall
  obtain ⟨cg₁, hrun, hcall⟩ := Option.bind_eq_some_iff.mp hcall
  have hinv := h.run hrun
  have hempty := registersEmpty_of_lru hinv (pop_spec h hrun)
  have hnext : cg₁.nextVar = cg.nextVar := by
    have hcount := (counts_run hrun).2
    rwa [countP_popMoves, Nat.add_zero] at hcount
  have hout : ∀ v ∈ args, (cg₁.vars v).reg = -1 := fun v hv => hempty.2 v (hnext ▸ hargs v hv)
  have hslot : ∀ v ∈ args, 1 ≤ (cg₁.vars v).stackPos := fun v hv =>
    hinv.home v (hnext ▸ hargs v hv) (hout v hv)
  obtain ⟨cg₂, passes, hloop, hp⟩ := passArguments_passed hslot hout (Nat.le_refl 6)
  obtain ⟨saves, hsaves, hstore⟩ := evicts_code hrun
  obtain ⟨cg₂', hloop', hcall⟩ := Option.bind_eq_some_iff.mp hcall
  obtain rfl : cg₂ = cg₂' := Option.some.inj (hloop.symm.trans hloop')
  obtain rfl := (Option.some.inj hcall).symm
  rw [foldl_setReg]
  have hpos : ∀ v, (if v ∈ args then { cg₂.vars v with reg := -1 } else cg₂.vars v).stackPos =
      (cg₁.vars v).stackPos := by
    intro v
    rw [← hp.stackPos v]
    split_ifs <;> rfl
  have htarget := hp.target
  rw [show min 6 args.length = args.length by omega] at htarget
  refine ⟨saves, passes, ?_, hstore, htarget, fun clobber machine => ⟨?_, ?_, ?_⟩⟩
  · show cg₂.code ++ [.call] = _
    rw [hp.code, hsaves]
  · intro v hv
    show 1 ≤ (ite _ _ _ : Variable).stackPos ∧
      (machine.execAll clobber saves).slots (-(ite _ _ _ : Variable).stackPos * 8) = _
    rw [hpos v]
    exact saved_values h hrun hempty hnext hsaves clobber machine hv
  · exact execAll_slots_of_target clobber htarget _
  · intro i v hget
    have hv := hargs v (List.mem_of_getElem? hget)
    have hlt := (List.getElem?_eq_some_iff.mp hget).1
    rw [hp.regs clobber _ i v (by omega) hget]
    exact (saved_values h hrun hempty hnext hsaves clobber machine hv).2

end Call
