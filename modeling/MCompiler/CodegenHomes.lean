/-
# Every variable has one home

A client of the register allocator refers to variables, writes to the register it
was just given, and calls functions.  This module runs the emitted code next to the
allocator and keeps track of the value each variable was last given.

`Session.Good` is kept by every action (`Session.Good.step`): a variable that has been
written is in its register, or, when it has none, in its stack slot.  And no action fails as
long as the variables can be numbered (`Session.Good.step_total`).
-/
import Mathlib.Data.Finset.Card
import Mathlib.Order.Interval.Finset.Nat
import MCompiler.CodegenMoves

open Runs

/-! ## The machine -/

/-- The registers, and the stack slots by their displacement from `RBP`. -/
structure Machine where
  regs : Reg64 → UInt64
  slots : ℤ → UInt64

/-- What an emitted instruction does.  After a call the registers hold whatever
`clobber` says. -/
def Machine.exec (clobber : Reg64 → UInt64) (m : Machine) : Emit → Machine
  | .loadRegRBP64 reg disp => { m with regs := Function.update m.regs reg (m.slots disp) }
  | .storeRegRBP64 reg disp => { m with slots := Function.update m.slots disp (m.regs reg) }
  | .storeReg64 source target =>
      { m with regs := Function.update m.regs target (m.regs source) }
  | .call => { m with regs := clobber }

/-- Run a piece of code. -/
def Machine.execAll (clobber : Reg64 → UInt64) (m : Machine) (code : List Emit) : Machine :=
  code.foldl (Machine.exec clobber) m

/-! ## Sessions -/

/-- A client at work: the allocator, the machine that has executed the code emitted so
far, the value last written to each variable, and the variable and the register of a
`variable_ref` that was the last call. -/
structure Session where
  cg : Codegen
  machine : Machine
  value : ℕ → Option UInt64
  granted : Option (ℕ × ℤ)

/-- What the client does. -/
inductive SessionOp where
  | newVar
  | ref (var : ℕ)
  | write (value : UInt64)
  | store (var : ℕ)
  | popBlock
  | functionCall (label : Label) (args : List ℕ) (clobber : Reg64 → UInt64)

namespace Session

/-- The allocator moves on to `cg`, and the machine executes the code this emitted. -/
def advance (s : Session) (clobber : Reg64 → UInt64) (cg : Codegen) : Session :=
  { cg := cg
    machine := s.machine.execAll clobber (cg.code.drop s.cg.code.length)
    value := s.value
    granted := none }

/-- One action of the client. -/
def step (s : Session) : SessionOp → Option Session
  | .newVar => (codegenNewVar s.cg).map (s.advance s.machine.regs)
  | .ref var => (variableRef callDepth s.cg var).map fun (reg, cg) =>
      { s.advance s.machine.regs cg with granted := some (var, reg) }
  | .write value => s.granted.map fun (var, reg) =>
      { s with
        machine := { s.machine with
          regs := Function.update s.machine.regs (getRealReg reg) value }
        value := Function.update s.value var (some value) }
  | .store var => (variableStore callDepth s.cg var).map (s.advance s.machine.regs)
  | .popBlock => (codegenPopBlock s.cg).map (s.advance s.machine.regs)
  | .functionCall label args clobber =>
      (archFunctionCall s.cg label args).map fun r => s.advance clobber r.1

/-- What the client may do: variables have been created before they are used, at most
six arguments are passed, and a write follows the `variable_ref` it belongs to. -/
def Allowed (s : Session) : SessionOp → Prop
  | .newVar => True
  | .ref var => var < s.cg.nextVar
  | .write _ => s.granted ≠ none
  | .store var => var < s.cg.nextVar
  | .popBlock => True
  | .functionCall _ args _ => args.length ≤ 6 ∧ ∀ var ∈ args, var < s.cg.nextVar

instance (s : Session) (op : SessionOp) : Decidable (s.Allowed op) := by
  cases op <;> unfold Allowed <;> infer_instance

/-- The session after `codegen_initFunction`: the arguments are in their registers. -/
def start (registerCount argCount : ℕ) (machine : Machine) : Session :=
  { cg := codegenInitFunction (codegenInit registerCount) argCount
    machine := machine
    value := fun v =>
      if v < argCount then some (machine.regs (getRealReg (argRegs.getD v 0))) else none
    granted := none }

end Session

/-- If the variable has been written, its value is in its register, or, when it has
none, in its stack slot. -/
def HasHome (cg : Codegen) (machine : Machine) (value : ℕ → Option UInt64) (var : ℕ) : Prop :=
  ∀ w, value var = some w →
    if (cg.vars var).reg ≥ 0 then machine.regs (archGetRealReg cg var) = w
    else (cg.vars var).stackPos > 0 ∧ machine.slots (-(cg.vars var).stackPos * 8) = w

/-- The number of variables the client creates. -/
def newVarCount (ops : List SessionOp) : ℕ :=
  ops.countP (fun op => match op with | .newVar => true | _ => false)

/-! ## Every move keeps the homes -/

/-- Distinct register ids are distinct real registers. -/
theorem getRealReg_inj : ∀ i < 10, ∀ j < 10, getRealReg (i : ℕ) = getRealReg (j : ℕ) → i = j := by
  decide

section Homes

variable {cg : Codegen} {machine : Machine} {value : ℕ → Option UInt64}

/-- Code that writes registers only leaves the slots alone. -/
theorem execAll_slots (clobber : Reg64 → UInt64) (es : List Emit)
    (hes : ∀ e ∈ es, cg.PassesArgument e) (machine : Machine) :
    (machine.execAll clobber es).slots = machine.slots := by
  induction es generalizing machine with
  | nil => rfl
  | cons e es ih =>
      obtain ⟨he, hes⟩ := List.forall_mem_cons.mp hes
      refine (ih hes _).trans ?_
      cases e with
      | storeRegRBP64 => cases he
      | call => cases he
      | loadRegRBP64 => rfl
      | storeReg64 => rfl

/-- **Every move keeps the homes.** -/
theorem move_hasHome (h : cg.Inv) (clobber : Reg64 → UInt64)
    (hfresh : ∀ v, cg.nextVar ≤ v → value v = none)
    (hhome : ∀ v, HasHome cg machine value v) {m : Move} (hm : cg.Enabled m) (v : ℕ) :
    HasHome (cg.move m) (machine.execAll clobber (cg.emitted m)) value v := by
  intro w hw
  have hv : v < cg.nextVar := by
    by_contra hge
    rw [hfresh v (by omega)] at hw
    cases hw
  have hold := hhome v w hw
  cases m with
  | bump u => exact hold
  | evict u =>
      obtain ⟨hu, hr, -⟩ := hm
      by_cases hvu : v = u
      · subst hvu
        have hself : (cg.move (.evict v)).vars v = ⟨-1, cg.slotOf v⟩ := Function.update_self ..
        rw [if_pos hr] at hold
        rw [hself, if_neg (by simp)]
        refine ⟨h.slotOf_pos hv, ?_⟩
        show Function.update machine.slots _ _ _ = w
        rw [Function.update_self]
        exact hold
      · have hother : (cg.move (.evict u)).vars v = cg.vars v := Function.update_of_ne hvu ..
        unfold archGetRealReg at hold ⊢
        rw [hother]
        by_cases hreg : (cg.vars v).reg ≥ 0
        · rw [if_pos hreg] at hold ⊢
          exact hold
        · rw [if_neg hreg] at hold ⊢
          refine ⟨hold.1, ?_⟩
          show Function.update machine.slots _ _ _ = w
          have hne := h.slotOf_ne hu hv hvu
          rw [Function.update_of_ne (by omega)]
          exact hold.2
  | reload u r =>
      obtain ⟨hu, hout, hr, hfree⟩ := hm
      by_cases hvu : v = u
      · subst hvu
        have hself : (cg.move (.reload v r)).vars v = ⟨r, (cg.vars v).stackPos⟩ :=
          Function.update_self ..
        rw [if_neg (by omega)] at hold
        unfold archGetRealReg
        rw [hself, if_pos (by simp)]
        show Function.update machine.regs _ _ _ = w
        rw [Function.update_self]
        exact hold.2
      · have hother : (cg.move (.reload u r)).vars v = cg.vars v := Function.update_of_ne hvu ..
        unfold archGetRealReg at hold ⊢
        rw [hother]
        by_cases hreg : (cg.vars v).reg ≥ 0
        · rw [if_pos hreg] at hold ⊢
          obtain ⟨i, hi, hreg', -⟩ := h.resident hv hreg
          have hne := h.reg_ne_of_free hr hfree hv
          have hcount := h.count_le
          show Function.update machine.regs _ _ _ = w
          rw [Function.update_of_ne, hold]
          intro heq
          rw [hreg'] at heq hne
          have := getRealReg_inj i (by omega) r (by omega) heq
          exact hne (by rw [this])
        · rw [if_neg hreg] at hold ⊢
          exact hold
  | create r =>
      have hother : (cg.move (.create r)).vars v = cg.vars v :=
        Function.update_of_ne (by omega) ..
      unfold archGetRealReg at hold ⊢
      rw [hother]
      exact hold
  | call es =>
      obtain ⟨hempty, hes⟩ := hm
      have hout : ¬ (cg.vars v).reg ≥ 0 := fun hreg => by
        have := (h.lru_mem v).mpr ⟨hv, hreg⟩
        rw [hempty] at this
        cases this
      have hslots : (machine.execAll clobber (cg.emitted (.call es))).slots = machine.slots := by
        show ((machine.execAll clobber (es ++ [.call]))).slots = _
        unfold Machine.execAll
        rw [List.foldl_append]
        exact execAll_slots clobber es hes machine
      rw [if_neg hout] at hold
      show if (cg.vars v).reg ≥ 0 then _ else _
      rw [if_neg hout, hslots]
      exact hold

/-- **A sequence of moves keeps the homes**, and only appends to the code. -/
theorem moves_hasHome (clobber : Reg64 → UInt64) (ms : List Move) (h : cg.Inv)
    (hfresh : ∀ v, cg.nextVar ≤ v → value v = none)
    (hhome : ∀ v, HasHome cg machine value v) {cg' : Codegen}
    (hrun : run Codegen.moveStep cg ms = some cg') :
    ∃ es, cg'.code = cg.code ++ es ∧ cg.nextVar ≤ cg'.nextVar ∧
      ∀ v, HasHome cg' (machine.execAll clobber es) value v := by
  induction ms generalizing cg machine with
  | nil =>
      rw [run_nil, Option.some.injEq] at hrun
      subst hrun
      exact ⟨[], by simp, Nat.le_refl _, hhome⟩
  | cons m ms ih =>
      obtain ⟨cg₁, hm, hrest⟩ := run_cons_eq_some.mp hrun
      have h₁ := h.moveStep hm
      obtain ⟨hen, rfl⟩ := moveStep_eq_some.mp hm
      have hnext : cg.nextVar ≤ (cg.move m).nextVar := by
        cases m <;> first | exact Nat.le_refl _ | exact Nat.le_succ _
      obtain ⟨es, hcode, hle, hhome'⟩ := ih h₁ (fun v hv => hfresh v (by omega))
        (fun v => move_hasHome h clobber hfresh hhome hen v) hrest
      refine ⟨cg.emitted m ++ es, ?_, by omega, fun v => ?_⟩
      · rw [hcode, code_move, List.append_assoc]
      · unfold Machine.execAll at hhome' ⊢
        rw [List.foldl_append]
        exact hhome' v

end Homes

/-! ## Calls never fail while slots can be numbered -/

section Total

variable {cg : Codegen}

/-- While a variable has no slot, the slots given out are fewer than the variables. -/
theorem frameWith_le (h : cg.Inv) {v : ℕ} (hv : v < cg.nextVar) : cg.frameWith v ≤ cg.nextVar := by
  -- the variables other than the slotless ones are mapped onto the slots
  have honto : ∀ s : Finset ℕ, (∀ w < cg.nextVar, 1 ≤ (cg.vars w).stackPos → w ∈ s) →
      cg.frameSize ≤ s.card := by
    intro s hs
    have hsub : Finset.Icc 1 cg.frameSize ⊆ s.image (fun w => (cg.vars w).stackPos.toNat) := by
      intro p hp
      obtain ⟨h1, h2⟩ := Finset.mem_Icc.mp hp
      obtain ⟨w, hw, hwp⟩ := h.slot_onto p h1 h2
      exact Finset.mem_image.mpr ⟨w, hs w hw (by omega), by omega⟩
    have hcard := (Finset.card_le_card hsub).trans Finset.card_image_le
    rwa [Nat.card_Icc, Nat.add_sub_cancel] at hcard
  unfold Codegen.frameWith
  split_ifs with hneg
  · have := honto ((Finset.range cg.nextVar).erase v) (fun w hw hpos => by
      refine Finset.mem_erase.mpr ⟨?_, Finset.mem_range.mpr hw⟩
      rintro rfl
      omega)
    rw [Finset.card_erase_of_mem (Finset.mem_range.mpr hv), Finset.card_range] at this
    omega
  · have := honto (Finset.range cg.nextVar) (fun w hw _ => Finset.mem_range.mpr hw)
    rwa [Finset.card_range] at this

theorem evict_enabled (h : cg.Inv) (hlt : cg.nextVar < 2 ^ 31) {v : ℕ} (hv : v < cg.nextVar)
    (hr : 0 ≤ (cg.vars v).reg) : cg.Enabled (.evict v) :=
  ⟨hv, hr, Nat.lt_of_le_of_lt (frameWith_le h hv) hlt⟩

/-- When no register is free, the variable to be evicted is in a register. -/
theorem victim_resident (h : cg.Inv) (hpos : 0 < cg.registerCount) (hfull : cg.freeReg = none) :
    cg.victim < cg.nextVar ∧ 0 ≤ (cg.vars cg.victim).reg := by
  have hbusy := List.find?_eq_none.mp hfull 0 (List.mem_range.mpr hpos)
  obtain ⟨v, hstat⟩ := Option.ne_none_iff_exists'.mp
    (fun hnone => hbusy (Option.isNone_iff_eq_none.mpr hnone))
  obtain ⟨hv, -, hreg⟩ := (h.status 0 v).mp hstat
  have hmem : v ∈ cg.lruVariables := (h.lru_mem v).mpr ⟨hv, by omega⟩
  refine (h.lru_mem _).mp ?_
  unfold Codegen.victim
  rcases hlru : cg.lruVariables with _ | ⟨u, rest⟩
  · rw [hlru] at hmem
    cases hmem
  · exact List.mem_cons_self

/-- The moves of `codegen_allocateReg` can be made. -/
theorem alloc_total (h : cg.Inv) (hpos : 0 < cg.registerCount) (hlt : cg.nextVar < 2 ^ 31) :
    ∃ cg', run Codegen.moveStep cg cg.allocMoves = some cg' := by
  unfold Codegen.allocMoves
  rcases hfind : cg.freeReg with _ | i
  · obtain ⟨hu, hr⟩ := victim_resident h hpos hfind
    exact ⟨_, (run_singleton _ _).trans (moveStep_of_enabled (evict_enabled h hlt hu hr))⟩
  · exact ⟨cg, rfl⟩

theorem codegenNewVar_total (h : cg.Inv) (hpos : 0 < cg.registerCount)
    (hlt : cg.nextVar < 2 ^ 31) : ∃ cg', codegenNewVar cg = some cg' := by
  obtain ⟨cg₁, halloc⟩ := alloc_total h hpos hlt
  obtain ⟨hreg, hfree, -⟩ := alloc_spec h halloc
  have hen : cg₁.Enabled (.create cg.allocReg) := ⟨hreg, hfree⟩
  refine ⟨cg₁.move (.create cg.allocReg), ?_⟩
  rw [codegenNewVar_eq_run h, Codegen.newVarMoves, run_append, halloc, Option.bind_some,
    run_singleton, moveStep_of_enabled hen]

theorem refMoves_total (h : cg.Inv) (hpos : 0 < cg.registerCount) (hlt : cg.nextVar < 2 ^ 31)
    {v : ℕ} (hv : v < cg.nextVar) : ∃ cg', run Codegen.moveStep cg (cg.refMoves v) = some cg' := by
  unfold Codegen.refMoves
  split_ifs with hr
  · have hen : cg.Enabled (.bump v) := ⟨hv, hr⟩
    exact ⟨_, (run_singleton _ _).trans (moveStep_of_enabled hen)⟩
  · obtain ⟨cg₁, halloc⟩ := alloc_total h hpos hlt
    obtain ⟨hreg, hfree, hnext, hsame⟩ := alloc_spec h halloc
    have hout : (cg.vars v).reg = -1 := by
      rcases h.reg v hv with h1 | ⟨r, -, h1⟩ <;> omega
    have hen : cg₁.Enabled (.reload v cg.allocReg) :=
      ⟨hnext ▸ hv, by rw [hsame v hout, hout], hreg, hfree⟩
    refine ⟨cg₁.move (.reload v cg.allocReg), ?_⟩
    rw [run_append, halloc, Option.bind_some, run_singleton, moveStep_of_enabled hen]

theorem storeMoves_total (h : cg.Inv) (hpos : 0 < cg.registerCount) (hlt : cg.nextVar < 2 ^ 31)
    {v : ℕ} (hv : v < cg.nextVar) :
    ∃ cg', run Codegen.moveStep cg (cg.storeMoves v) = some cg' := by
  obtain ⟨cg₁, href⟩ := refMoves_total h hpos hlt hv
  obtain ⟨-, hr, -, hnext⟩ := ref_spec h hv href
  have hen₁ := evict_enabled (h.run href) (hnext ▸ hlt) (hnext ▸ hv) hr
  unfold Codegen.storeMoves
  unfold Codegen.refMoves at href
  split_ifs at href ⊢ with hreg
  · exact ⟨_, (run_singleton _ _).trans (moveStep_of_enabled (evict_enabled h hlt hv hreg))⟩
  · refine ⟨cg₁.move (.evict v), ?_⟩
    have hsplit : cg.allocMoves ++ [.reload v cg.allocReg, .evict v] =
        (cg.allocMoves ++ [.reload v cg.allocReg]) ++ [.evict v] := by simp
    rw [hsplit, run_append, href, Option.bind_some, run_singleton, moveStep_of_enabled hen₁]

theorem storeRegisters_total (regs : List ℕ) (h : cg.Inv) (hlt : cg.nextVar < 2 ^ 31) :
    ∃ cg', regs.foldlM storeRegister cg = some cg' := by
  induction regs generalizing cg with
  | nil => exact ⟨cg, rfl⟩
  | cons i regs ih =>
      rw [List.foldlM_cons]
      unfold storeRegister
      rcases hstat : cg.registerStatus i with _ | v
      · exact ih h hlt
      · obtain ⟨hv, -, hreg⟩ := (h.status i v).mp hstat
        have hr : 0 ≤ (cg.vars v).reg := by omega
        have hen := moveStep_of_enabled (evict_enabled h hlt hv hr)
        have hstore : variableStore callDepth cg v = some (cg.move (.evict v)) :=
          (variableStore_resident h 5 hv hr).trans hen
        dsimp only
        rw [hstore]
        exact ih (h.moveStep hen) hlt

theorem codegenPopBlock_total (h : cg.Inv) (hlt : cg.nextVar < 2 ^ 31) :
    ∃ cg', codegenPopBlock cg = some cg' :=
  storeRegisters_total _ h hlt

theorem archFunctionCall_total (h : cg.Inv) (hlt : cg.nextVar < 2 ^ 31) (label : Label)
    {args : List ℕ} (hlen : args.length < 7) (hargs : ∀ v ∈ args, v < cg.nextVar) :
    ∃ r, archFunctionCall cg label args = some r := by
  obtain ⟨cg₁, hpop⟩ := codegenPopBlock_total h hlt
  rw [codegenPopBlock_eq_run h] at hpop
  obtain ⟨es, hcall, hen⟩ := archFunctionCall_eq_run h label hlen hargs
  rw [run_append, hpop, Option.bind_some, run_singleton,
    moveStep_of_enabled (hen cg₁ hpop)] at hcall
  obtain ⟨r, hr, -⟩ := Option.map_eq_some_iff.mp hcall
  exact ⟨r, hr⟩

end Total

/-! ## The invariant of a session -/

/-- What holds of every session. -/
structure Session.Good (s : Session) : Prop where
  inv : s.cg.Inv
  fresh : ∀ v, s.cg.nextVar ≤ v → s.value v = none
  home : ∀ v, HasHome s.cg s.machine s.value v
  /-- The register just returned still is the variable's. -/
  granted : ∀ v reg, s.granted = some (v, reg) →
    v < s.cg.nextVar ∧ (s.cg.vars v).reg = reg ∧ 0 ≤ reg

namespace Session.Good

variable {s : Session}

/-- The allocator makes a sequence of moves, and the machine follows. -/
theorem advance (h : s.Good) (clobber : Reg64 → UInt64) {ms : List Move} {cg : Codegen}
    (hrun : run Codegen.moveStep s.cg ms = some cg) : (s.advance clobber cg).Good := by
  obtain ⟨es, hcode, hle, hhome⟩ := moves_hasHome clobber ms h.inv h.fresh h.home hrun
  refine ⟨h.inv.run hrun, fun v hv => h.fresh v (Nat.le_trans hle hv), fun v => ?_, ?_⟩
  · show HasHome cg (s.machine.execAll clobber (cg.code.drop s.cg.code.length)) s.value v
    rw [hcode, List.drop_left]
    exact hhome v
  · rintro v reg ⟨⟩

/-- Writing to the register of the variable just referred to gives the variable its new
value and no other variable one. -/
theorem write (h : s.Good) {v : ℕ} {reg : ℤ} (hgrant : s.granted = some (v, reg))
    (value : UInt64) :
    ({ s with
      machine := { s.machine with regs := Function.update s.machine.regs (getRealReg reg) value }
      value := Function.update s.value v (some value) } : Session).Good := by
  obtain ⟨hv, hreg, hnonneg⟩ := h.granted v reg hgrant
  refine ⟨h.inv, fun u hu => ?_, fun u w hw => ?_, h.granted⟩
  · have hne : u ≠ v := by
      have : s.cg.nextVar ≤ u := hu
      omega
    exact (Function.update_of_ne hne ..).trans (h.fresh u hu)
  · by_cases huv : u = v
    · subst huv
      dsimp only at hw ⊢
      rw [Function.update_self, Option.some.injEq] at hw
      unfold archGetRealReg
      rw [hreg, if_pos hnonneg, Function.update_self]
      exact hw
    · dsimp only at hw ⊢
      rw [Function.update_of_ne huv] at hw
      have hold := h.home u w hw
      have hu : u < s.cg.nextVar := by
        by_contra hge
        rw [h.fresh u (by omega)] at hw
        cases hw
      by_cases hr : (s.cg.vars u).reg ≥ 0
      · rw [if_pos hr] at hold ⊢
        obtain ⟨i, hi, hui, hstat⟩ := h.inv.resident hu hr
        obtain ⟨j, hj, hvj, hstat'⟩ := h.inv.resident hv (by omega)
        have hcount := h.inv.count_le
        unfold archGetRealReg at hold ⊢
        rw [Function.update_of_ne, hold]
        rw [hui, ← hreg, hvj]
        intro heq
        have hij := getRealReg_inj i (by omega) j (by omega) heq
        rw [hij, hstat', Option.some.injEq] at hstat
        exact huv hstat.symm
      · rw [if_neg hr] at hold ⊢
        exact hold

/-- **Every action keeps the invariant.** -/
theorem step (h : s.Good) {op : SessionOp} (ha : s.Allowed op) {s' : Session}
    (hstep : s.step op = some s') : s'.Good := by
  cases op with
  | newVar =>
      obtain ⟨cg, hcg, rfl⟩ := Option.map_eq_some_iff.mp hstep
      exact h.advance _ ((codegenNewVar_eq_run h.inv).symm.trans hcg)
  | ref v =>
      obtain ⟨⟨reg, cg⟩, hcg, rfl⟩ := Option.map_eq_some_iff.mp hstep
      rw [callDepth, variableRef_eq_run h.inv 3 ha] at hcg
      obtain ⟨cg, hrun, heq⟩ := Option.map_eq_some_iff.mp hcg
      obtain ⟨rfl, rfl⟩ := Prod.mk.inj heq
      obtain ⟨hreg, hnonneg, -, hnext⟩ := ref_spec h.inv ha hrun
      have hadv := h.advance s.machine.regs hrun
      refine ⟨hadv.inv, hadv.fresh, hadv.home, ?_⟩
      rintro u r hur
      obtain ⟨rfl, rfl⟩ := Prod.mk.inj (Option.some.inj hur)
      exact ⟨Nat.lt_of_lt_of_eq ha hnext.symm, hreg, hreg ▸ hnonneg⟩
  | write value =>
      obtain ⟨⟨v, reg⟩, hgrant, rfl⟩ := Option.map_eq_some_iff.mp hstep
      exact h.write hgrant value
  | store v =>
      obtain ⟨cg, hcg, rfl⟩ := Option.map_eq_some_iff.mp hstep
      exact h.advance _ ((variableStore_eq_run h.inv 1 ha).symm.trans hcg)
  | popBlock =>
      obtain ⟨cg, hcg, rfl⟩ := Option.map_eq_some_iff.mp hstep
      exact h.advance _ ((codegenPopBlock_eq_run h.inv).symm.trans hcg)
  | functionCall label args clobber =>
      obtain ⟨r, hr, rfl⟩ := Option.map_eq_some_iff.mp hstep
      obtain ⟨es, heq, -⟩ :=
        archFunctionCall_eq_run h.inv label (Nat.lt_succ_of_le ha.1) ha.2
      rw [hr] at heq
      exact h.advance clobber heq.symm

end Session.Good

/-! ## The start of a session -/

theorem argRegs_inj : ∀ i < 6, ∀ j < 6, argRegs.getD i 0 = argRegs.getD j 0 → i = j := by
  decide

theorem argRegs_lt : ∀ i < 6, argRegs.getD i 0 < 7 := by decide

theorem codegenInitFunction_succ (cg : Codegen) {n : ℕ} (hn : n < 6) :
    codegenInitFunction cg (n + 1) =
      codegenNewVarReg (codegenInitFunction cg n) (argRegs.getD n 0 : ℕ) := by
  unfold codegenInitFunction
  rw [List.range_succ, List.foldl_append]
  exact if_pos hn

/-- `codegen_initFunction` creates the arguments in their registers. -/
theorem initFunction_spec {registerCount : ℕ} (h10 : registerCount ≤ 10) {argCount : ℕ}
    (hargs : argCount = 0 ∨ 7 ≤ registerCount ∧ argCount ≤ 6) :
    let cg := codegenInitFunction (codegenInit registerCount) argCount
    cg.Inv ∧ cg.registerCount = registerCount ∧ cg.nextVar = argCount ∧
      (∀ i < argCount, (cg.vars i).reg = (argRegs.getD i 0 : ℕ)) ∧
      cg.frameSize = 0 ∧ cg.code = [] := by
  induction argCount with
  | zero =>
      exact ⟨Codegen.Inv.init h10, rfl, rfl, fun i hi => absurd hi (Nat.not_lt_zero i), rfl, rfl⟩
  | succ n ih =>
      obtain ⟨hinv, hcount, hnext, hregs, hframe, hcode⟩ := ih (by omega)
      have hstep := codegenInitFunction_succ (codegenInit registerCount) (show n < 6 by omega)
      dsimp only at hinv hcount hnext hregs hframe hcode ⊢
      rw [hstep]
      set cg := codegenInitFunction (codegenInit registerCount) n
      have hlt := argRegs_lt n (by omega)
      have hfree : cg.registerStatus (argRegs.getD n 0) = none := by
        rcases hstat : cg.registerStatus (argRegs.getD n 0) with _ | v
        · rfl
        · obtain ⟨hv, -, hreg⟩ := (hinv.status _ v).mp hstat
          rw [hnext] at hv
          rw [hregs v hv] at hreg
          have := argRegs_inj v (by omega) n (by omega) (by omega)
          omega
      have hen : cg.Enabled (.create (argRegs.getD n 0)) := ⟨by omega, hfree⟩
      refine ⟨hinv.moveStep (moveStep_of_enabled hen), hcount, congrArg (· + 1) hnext, ?_,
        hframe, hcode⟩
      intro i hi
      show (Function.update cg.vars cg.nextVar ⟨(argRegs.getD n 0 : ℕ), -1⟩ i).reg = _
      rw [hnext]
      by_cases hin : i = n
      · rw [hin, Function.update_self]
      · rw [Function.update_of_ne hin]
        exact hregs i (by omega)

theorem Session.start_good {registerCount : ℕ} (h10 : registerCount ≤ 10) {argCount : ℕ}
    (hargs : argCount = 0 ∨ 7 ≤ registerCount ∧ argCount ≤ 6) (machine : Machine) :
    (Session.start registerCount argCount machine).Good := by
  obtain ⟨hinv, -, hnext, hregs, -⟩ := initFunction_spec h10 hargs
  refine ⟨hinv, fun v hv => ?_, fun v w hw => ?_, ?_⟩
  · have hge : argCount ≤ v := hnext ▸ hv
    exact if_neg (by omega)
  · simp only [Session.start] at hw
    split_ifs at hw with hv
    have hreg : ((Session.start registerCount argCount machine).cg.vars v).reg =
        (argRegs.getD v 0 : ℕ) := hregs v hv
    unfold archGetRealReg
    rw [if_pos (by omega), hreg]
    exact Option.some.inj hw
  · rintro v reg ⟨⟩

/-! ## Runs of a client -/

/-- **No action fails** while the variables can be numbered. -/
theorem Session.Good.step_total {s : Session} (h : s.Good) (hpos : 0 < s.cg.registerCount)
    (hlt : s.cg.nextVar < 2 ^ 31) {op : SessionOp} (ha : s.Allowed op) :
    ∃ s', s.step op = some s' ∧ s'.cg.registerCount = s.cg.registerCount ∧
      s'.cg.nextVar = s.cg.nextVar + newVarCount [op] := by
  cases op with
  | newVar =>
      obtain ⟨cg, hcg⟩ := codegenNewVar_total h.inv hpos hlt
      obtain ⟨hreg, hnext⟩ := counts_run ((codegenNewVar_eq_run h.inv).symm.trans hcg)
      rw [countP_newVarMoves] at hnext
      exact ⟨_, by rw [Session.step, hcg]; rfl, hreg, hnext⟩
  | ref v =>
      obtain ⟨cg, hcg⟩ := refMoves_total h.inv hpos hlt ha
      obtain ⟨hreg, hnext⟩ := counts_run hcg
      rw [countP_refMoves] at hnext
      exact ⟨_, by rw [Session.step, callDepth, variableRef_eq_run h.inv 3 ha, hcg]; rfl,
        hreg, hnext⟩
  | write value =>
      obtain ⟨⟨v, reg⟩, hgrant⟩ := Option.ne_none_iff_exists'.mp ha
      exact ⟨_, Option.map_eq_some_iff.mpr ⟨(v, reg), hgrant, rfl⟩, rfl, rfl⟩
  | store v =>
      obtain ⟨cg, hcg⟩ := storeMoves_total h.inv hpos hlt ha
      obtain ⟨hreg, hnext⟩ := counts_run hcg
      rw [countP_storeMoves] at hnext
      exact ⟨_, by rw [Session.step, callDepth, variableStore_eq_run h.inv 1 ha, hcg]; rfl,
        hreg, hnext⟩
  | popBlock =>
      obtain ⟨cg, hcg⟩ := codegenPopBlock_total h.inv hlt
      obtain ⟨hreg, hnext⟩ := counts_run ((codegenPopBlock_eq_run h.inv).symm.trans hcg)
      rw [countP_popMoves] at hnext
      exact ⟨_, by rw [Session.step, hcg]; rfl, hreg, hnext⟩
  | functionCall label args clobber =>
      have hlen : args.length < 7 := Nat.lt_succ_of_le ha.1
      obtain ⟨r, hr⟩ := archFunctionCall_total h.inv hlt label hlen ha.2
      obtain ⟨es, heq, -⟩ := archFunctionCall_eq_run h.inv label hlen ha.2
      rw [hr] at heq
      obtain ⟨hreg, hnext⟩ := counts_run heq.symm
      rw [List.countP_append, countP_popMoves] at hnext
      exact ⟨_, by rw [Session.step, hr]; rfl, hreg, hnext⟩
