/-
# The register allocator as a machine of four moves

Whatever the allocator does to its state is one of a few moves: a variable that is
in a register becomes the most recently used one (`bump`), is stored to its stack
slot and leaves its register (`evict`), comes back from its slot into a free
register (`reload`), or is created in a free register (`create`).  A function call
is a sequence of evictions followed by one `call`.

* `Codegen.Inv` relates registers, variables, the list of recently used variables
  and the stack slots, and every move keeps it (`Codegen.Inv.moveStep`);
* `variableStore_eq_run`, `variableRef_eq_run`, `codegenNewVar_eq_run`,
  `codegenPopBlock_eq_run` and `archFunctionCall_eq_run` write each function as the
  moves it makes.
-/
import Mathlib.Data.List.Nodup
import MCompiler.Codegen

open Runs

/-! ## The moves -/

/-- A move of the allocator. -/
inductive Move where
  | bump (var : ℕ)
  | evict (var : ℕ)
  | reload (var : ℕ) (reg : ℕ)
  | create (reg : ℕ)
  | call (args : List Emit)

namespace Codegen

variable (cg : Codegen)

/-- The slot a variable has, or gets when it is stored for the first time. -/
def slotOf (var : ℕ) : ℤ :=
  if (cg.vars var).stackPos < 0 then cg.frameSize + 1 else (cg.vars var).stackPos

/-- The frame size once `var` has a slot. -/
def frameWith (var : ℕ) : ℕ :=
  if (cg.vars var).stackPos < 0 then cg.frameSize + 1 else cg.frameSize

/-- The encoder calls of a move. -/
def emitted : Move → List Emit
  | .bump _ => []
  | .evict var => [.storeRegRBP64 (archGetRealReg cg var) (-cg.slotOf var * 8)]
  | .reload var reg => [.loadRegRBP64 (getRealReg reg) (-(cg.vars var).stackPos * 8)]
  | .create _ => []
  | .call args => args ++ [.call]

/-- The state after a move. -/
def move : Move → Codegen
  | .bump var => lruBump cg var
  | .evict var =>
      { cg with
        frameSize := cg.frameWith var
        vars := Function.update cg.vars var ⟨-1, cg.slotOf var⟩
        lruVariables := cg.lruVariables.erase var
        registerStatus := Function.update cg.registerStatus (cg.vars var).reg.toNat none
        code := cg.code ++ [.storeRegRBP64 (archGetRealReg cg var) (-cg.slotOf var * 8)] }
  | .reload var reg =>
      { cg with
        vars := Function.update cg.vars var ⟨reg, (cg.vars var).stackPos⟩
        lruVariables := cg.lruVariables ++ [var]
        registerStatus := Function.update cg.registerStatus reg (some var)
        code := cg.code ++ [.loadRegRBP64 (getRealReg reg) (-(cg.vars var).stackPos * 8)] }
  | .create reg => codegenNewVarReg cg reg
  | .call args => { cg with code := cg.code ++ (args ++ [.call]) }

/-- Encoder calls that pass arguments: they write registers only, from the slots of
variables or from other registers. -/
def PassesArgument : Emit → Prop
  | .loadRegRBP64 _ disp =>
      ∃ var < cg.nextVar, 1 ≤ (cg.vars var).stackPos ∧ disp = -(cg.vars var).stackPos * 8
  | .storeReg64 _ _ => True
  | _ => False

instance (e : Emit) : Decidable (cg.PassesArgument e) := by
  cases e <;> unfold PassesArgument <;> infer_instance

/-- When a move can be made. -/
def Enabled : Move → Prop
  | .bump var => var < cg.nextVar ∧ 0 ≤ (cg.vars var).reg
  | .evict var => var < cg.nextVar ∧ 0 ≤ (cg.vars var).reg ∧ cg.frameWith var < 2 ^ 31
  | .reload var reg => var < cg.nextVar ∧ (cg.vars var).reg = -1 ∧
      reg < cg.registerCount ∧ cg.registerStatus reg = none
  | .create reg => reg < cg.registerCount ∧ cg.registerStatus reg = none
  | .call args => cg.lruVariables = [] ∧ ∀ e ∈ args, cg.PassesArgument e

instance (m : Move) : Decidable (cg.Enabled m) := by
  cases m <;> unfold Enabled <;> infer_instance

/-- One move, if it can be made. -/
def moveStep (m : Move) : Option Codegen := if cg.Enabled m then some (cg.move m) else none

end Codegen

theorem moveStep_eq_some {cg cg' : Codegen} {m : Move} :
    cg.moveStep m = some cg' ↔ cg.Enabled m ∧ cg.move m = cg' := by
  unfold Codegen.moveStep
  split_ifs with h
  · simp [h]
  · simp [h]

theorem moveStep_of_enabled {cg : Codegen} {m : Move} (h : cg.Enabled m) :
    cg.moveStep m = some (cg.move m) := if_pos h

/-- A move appends what it emits to the code. -/
theorem code_move (cg : Codegen) (m : Move) : (cg.move m).code = cg.code ++ cg.emitted m := by
  cases m <;> simp [Codegen.move, Codegen.emitted, lruBump, Codegen.lruAdd, Codegen.lruDeattach,
    codegenNewVarReg, Codegen.setStatus]

@[simp] theorem registerCount_move (cg : Codegen) (m : Move) :
    (cg.move m).registerCount = cg.registerCount := by
  cases m <;> rfl

/-- Whether a move creates a variable. -/
def Move.isCreate : Move → Bool
  | .create _ => true
  | _ => false

/-- A sequence of moves leaves the number of registers alone, and the number of
variables grows by those it creates. -/
theorem counts_run {ms : List Move} {cg cg' : Codegen}
    (hrun : run Codegen.moveStep cg ms = some cg') :
    cg'.registerCount = cg.registerCount ∧
      cg'.nextVar = cg.nextVar + ms.countP Move.isCreate := by
  induction ms generalizing cg with
  | nil =>
      rw [run_nil, Option.some.injEq] at hrun
      rw [hrun]
      exact ⟨rfl, rfl⟩
  | cons m ms ih =>
      obtain ⟨cg₁, hm, hrest⟩ := run_cons_eq_some.mp hrun
      obtain ⟨hreg, hnext⟩ := ih hrest
      obtain ⟨-, rfl⟩ := moveStep_eq_some.mp hm
      refine ⟨hreg.trans (registerCount_move cg m), hnext.trans ?_⟩
      have hmove : (cg.move m).nextVar = cg.nextVar + if m.isCreate then 1 else 0 := by
        cases m <;> rfl
      rw [hmove, List.countP_cons]
      omega

/-! ## The invariant -/

/-- What holds of every state the allocator reaches. -/
structure Codegen.Inv (cg : Codegen) : Prop where
  /-- The register ids index the table of real registers. -/
  count_le : cg.registerCount ≤ 10
  /-- `registerStatus` and the variables' `reg` fields say the same. -/
  status : ∀ r v, cg.registerStatus r = some v ↔
    v < cg.nextVar ∧ r < cg.registerCount ∧ (cg.vars v).reg = r
  reg : ∀ v < cg.nextVar, (cg.vars v).reg = -1 ∨
    ∃ r < cg.registerCount, (cg.vars v).reg = (r : ℤ)
  /-- The list holds the variables that are in registers, each once. -/
  lru_nodup : cg.lruVariables.Nodup
  lru_mem : ∀ v, v ∈ cg.lruVariables ↔ v < cg.nextVar ∧ 0 ≤ (cg.vars v).reg
  /-- A variable out of registers has a slot. -/
  home : ∀ v < cg.nextVar, (cg.vars v).reg = -1 → 1 ≤ (cg.vars v).stackPos
  /-- The slots given out are `1 .. frameSize`, each to one variable. -/
  slot : ∀ v < cg.nextVar, (cg.vars v).stackPos = -1 ∨
    1 ≤ (cg.vars v).stackPos ∧ (cg.vars v).stackPos ≤ cg.frameSize
  slot_inj : ∀ v < cg.nextVar, ∀ w < cg.nextVar, 1 ≤ (cg.vars v).stackPos →
    (cg.vars v).stackPos = (cg.vars w).stackPos → v = w
  slot_onto : ∀ p : ℕ, 1 ≤ p → p ≤ cg.frameSize → ∃ v < cg.nextVar, (cg.vars v).stackPos = p
  frame_lt : cg.frameSize < 2 ^ 31

namespace Codegen.Inv

variable {cg : Codegen}

theorem init {registerCount : ℕ} (h : registerCount ≤ 10) : (codegenInit registerCount).Inv where
  count_le := h
  status := fun r v => by simp [codegenInit]
  reg := fun v hv => absurd hv (Nat.not_lt_zero v)
  lru_nodup := List.nodup_nil
  lru_mem := fun v => by simp [codegenInit]
  home := fun v hv => absurd hv (Nat.not_lt_zero v)
  slot := fun v hv => absurd hv (Nat.not_lt_zero v)
  slot_inj := fun v hv => absurd hv (Nat.not_lt_zero v)
  slot_onto := fun p h1 h0 => by
    simp only [codegenInit] at h0
    omega
  frame_lt := by
    show (0 : ℕ) < 2 ^ 31
    decide

/-- A variable in a register, and that register. -/
theorem resident (h : cg.Inv) {v : ℕ} (hv : v < cg.nextVar) (hr : 0 ≤ (cg.vars v).reg) :
    ∃ r < cg.registerCount, (cg.vars v).reg = (r : ℤ) ∧ cg.registerStatus r = some v := by
  rcases h.reg v hv with h1 | ⟨r, hlt, hreg⟩
  · omega
  · exact ⟨r, hlt, hreg, (h.status r v).mpr ⟨hv, hlt, hreg⟩⟩

/-- A free register holds no variable. -/
theorem reg_ne_of_free (h : cg.Inv) {r : ℕ} (hr : r < cg.registerCount)
    (hfree : cg.registerStatus r = none) {v : ℕ} (hv : v < cg.nextVar) :
    (cg.vars v).reg ≠ r := by
  intro hreg
  have hstat := (h.status r v).mpr ⟨hv, hr, hreg⟩
  rw [hfree] at hstat
  cases hstat

theorem slotOf_pos (h : cg.Inv) {v : ℕ} (hv : v < cg.nextVar) : 1 ≤ cg.slotOf v := by
  unfold slotOf
  rcases h.slot v hv with h1 | h1
  · rw [if_pos (by omega)]
    omega
  · rw [if_neg (by omega)]
    exact h1.1

theorem slotOf_le (h : cg.Inv) {v : ℕ} (hv : v < cg.nextVar) :
    cg.slotOf v ≤ cg.frameWith v := by
  unfold slotOf frameWith
  rcases h.slot v hv with h1 | h1
  · rw [if_pos (by omega), if_pos (by omega)]
    omega
  · rw [if_neg (by omega), if_neg (by omega)]
    exact h1.2

theorem frame_le_frameWith (cg : Codegen) (v : ℕ) : cg.frameSize ≤ cg.frameWith v := by
  unfold frameWith
  split_ifs <;> omega

/-- The slot of a variable is no other variable's. -/
theorem slotOf_ne (h : cg.Inv) {v w : ℕ} (hv : v < cg.nextVar) (hw : w < cg.nextVar)
    (hne : w ≠ v) : (cg.vars w).stackPos ≠ cg.slotOf v := by
  unfold slotOf
  rcases h.slot v hv with h1 | h1
  · rw [if_pos (by omega)]
    rcases h.slot w hw with h2 | h2
    · omega
    · omega
  · rw [if_neg (by omega)]
    intro heq
    exact hne (h.slot_inj v hv w hw h1.1 heq.symm).symm

end Codegen.Inv

/-! ## Every move keeps the invariant -/

namespace Codegen.Inv

variable {cg : Codegen}

/-- Using a variable changes its place in the list only. -/
theorem bump (h : cg.Inv) {v : ℕ} (hv : v < cg.nextVar) (hr : 0 ≤ (cg.vars v).reg) :
    (cg.move (.bump v)).Inv := by
  have hmem : v ∈ cg.lruVariables := (h.lru_mem v).mpr ⟨hv, hr⟩
  have hperm : (cg.move (.bump v)).lruVariables.Perm cg.lruVariables :=
    (List.perm_append_comm.trans (List.perm_cons_erase hmem).symm)
  exact { h with
    lru_nodup := hperm.nodup_iff.mpr h.lru_nodup
    lru_mem := fun w => hperm.mem_iff.trans (h.lru_mem w) }

/-- Storing a variable: it gets the slot it has or a new one, and its register
becomes free. -/
theorem evict (h : cg.Inv) {v : ℕ} (hv : v < cg.nextVar) (hr : 0 ≤ (cg.vars v).reg)
    (hframe : cg.frameWith v < 2 ^ 31) : (cg.move (.evict v)).Inv := by
  obtain ⟨r, hlt, hreg, hstat⟩ := h.resident hv hr
  have hself : (cg.move (.evict v)).vars v = ⟨-1, cg.slotOf v⟩ := Function.update_self ..
  have hother : ∀ w, w ≠ v → (cg.move (.evict v)).vars w = cg.vars w := fun w hw =>
    Function.update_of_ne hw ..
  have hnat : (cg.vars v).reg.toNat = r := by omega
  have hle := Codegen.Inv.frame_le_frameWith cg v
  have hfree : ∀ i, (cg.move (.evict v)).registerStatus i =
      if i = r then none else cg.registerStatus i := fun i => by
    show Function.update cg.registerStatus (cg.vars v).reg.toNat none i = _
    rw [hnat, Function.update_apply]
  constructor
  case count_le => exact h.count_le
  case lru_nodup => exact h.lru_nodup.erase v
  case frame_lt => exact hframe
  case status =>
    intro i w
    rw [hfree]
    by_cases hi : i = r
    · subst hi
      rw [if_pos rfl]
      refine ⟨fun hc => (by cases hc), ?_⟩
      rintro ⟨hw, -, hwr⟩
      by_cases hwv : w = v
      · rw [hwv, hself] at hwr
        simp only at hwr
        omega
      · rw [hother w hwv] at hwr
        have := (h.status i w).mpr ⟨hw, hlt, hwr⟩
        rw [hstat] at this
        exact absurd (Option.some.inj this).symm hwv
    · rw [if_neg hi]
      by_cases hwv : w = v
      · subst hwv
        rw [hself, h.status]
        constructor
        · rintro ⟨-, -, hri⟩
          omega
        · rintro ⟨-, -, hri⟩
          simp only at hri
          omega
      · rw [hother w hwv, h.status]
        exact Iff.rfl
  case reg =>
    intro w hw
    by_cases hwv : w = v
    · subst hwv
      rw [hself]
      exact Or.inl rfl
    · rw [hother w hwv]
      exact h.reg w hw
  case lru_mem =>
    intro w
    show w ∈ cg.lruVariables.erase v ↔ _
    rw [h.lru_nodup.mem_erase_iff]
    by_cases hwv : w = v
    · subst hwv
      rw [hself]
      simp
    · rw [hother w hwv, h.lru_mem]
      exact and_iff_right hwv
  case home =>
    intro w hw
    by_cases hwv : w = v
    · subst hwv
      rw [hself]
      exact fun _ => h.slotOf_pos hv
    · rw [hother w hwv]
      exact h.home w hw
  case slot =>
    intro w hw
    by_cases hwv : w = v
    · subst hwv
      rw [hself]
      exact Or.inr ⟨h.slotOf_pos hv, h.slotOf_le hv⟩
    · rw [hother w hwv]
      rcases h.slot w hw with h1 | ⟨h1, h2⟩
      · exact Or.inl h1
      · refine Or.inr ⟨h1, ?_⟩
        show _ ≤ ((cg.frameWith v : ℕ) : ℤ)
        omega
  case slot_inj =>
    intro w hw u hu hpos heq
    by_cases hwv : w = v
    · by_cases huv : u = v
      · rw [hwv, huv]
      · subst hwv
        rw [hself, hother u huv] at heq
        exact absurd heq.symm (h.slotOf_ne hv hu huv)
    · by_cases huv : u = v
      · subst huv
        rw [hself, hother w hwv] at heq
        exact absurd heq (h.slotOf_ne hv hw hwv)
      · rw [hother w hwv] at hpos heq
        rw [hother u huv] at heq
        exact h.slot_inj w hw u hu hpos heq
  case slot_onto =>
    intro p h1 hp
    by_cases hold : p ≤ cg.frameSize
    · obtain ⟨w, hw, hwp⟩ := h.slot_onto p h1 hold
      by_cases hwv : w = v
      · subst hwv
        refine ⟨w, hw, ?_⟩
        rw [hself]
        show cg.slotOf w = p
        unfold Codegen.slotOf
        rw [if_neg (by omega), hwp]
      · exact ⟨w, hw, by rw [hother w hwv, hwp]⟩
    -- the only new slot is that of `v`
    · have hp' : p ≤ cg.frameWith v := hp
      unfold Codegen.frameWith at hp'
      split_ifs at hp' with hneg
      · refine ⟨v, hv, ?_⟩
        rw [hself]
        show cg.slotOf v = p
        unfold Codegen.slotOf
        rw [if_pos hneg]
        omega
      · exact absurd hp' hold

/-- A variable `v` enters a free register `r`, whether it is new or comes back from
its slot. -/
theorem enter (h : cg.Inv) {v : ℕ} {r : ℕ} {cg' : Codegen} (hr : r < cg.registerCount)
    (hfree : cg.registerStatus r = none) (hv : v ∉ cg.lruVariables)
    (hcount : cg'.registerCount = cg.registerCount)
    (hnext : ∀ w, w < cg'.nextVar ↔ w < cg.nextVar ∨ w = v)
    (hframe : cg'.frameSize = cg.frameSize)
    (hlru : cg'.lruVariables = cg.lruVariables ++ [v])
    (hstatus : cg'.registerStatus = Function.update cg.registerStatus r (some v))
    (hself : (cg'.vars v).reg = r) (hslot : (cg'.vars v).stackPos = (cg.vars v).stackPos ∧
      v < cg.nextVar ∨ (cg'.vars v).stackPos = -1 ∧ ¬ v < cg.nextVar)
    (hother : ∀ w, w ≠ v → cg'.vars w = cg.vars w) : cg'.Inv := by
  have hpos : ∀ w, w < cg'.nextVar → 1 ≤ (cg'.vars w).stackPos →
      w < cg.nextVar ∧ (cg'.vars w).stackPos = (cg.vars w).stackPos := by
    intro w hw h1
    by_cases hwv : w = v
    · subst hwv
      rcases hslot with ⟨h2, h3⟩ | ⟨h2, -⟩
      · exact ⟨h3, h2⟩
      · omega
    · rw [hother w hwv] at h1 ⊢
      exact ⟨((hnext w).mp hw).resolve_right hwv, rfl⟩
  constructor
  case count_le => exact hcount ▸ h.count_le
  case frame_lt => exact hframe ▸ h.frame_lt
  case lru_nodup =>
    rw [hlru]
    exact List.Nodup.append h.lru_nodup (by simp) (by simpa using hv)
  case status =>
    intro i w
    rw [hstatus, Function.update_apply, hcount, hnext]
    by_cases hi : i = r
    · subst hi
      rw [if_pos rfl, Option.some.injEq]
      constructor
      · rintro rfl
        exact ⟨Or.inr rfl, hr, hself⟩
      · rintro ⟨hw, -, hwr⟩
        by_contra hne
        rw [hother w (Ne.symm hne)] at hwr
        exact h.reg_ne_of_free hr hfree (hw.resolve_right (Ne.symm hne)) hwr
    · rw [if_neg hi, h.status]
      by_cases hwv : w = v
      · subst hwv
        rw [hself]
        constructor
        · rintro ⟨hw, -, hwr⟩
          exact absurd ((h.lru_mem w).mpr ⟨hw, by omega⟩) hv
        · rintro ⟨-, -, hwr⟩
          omega
      · rw [hother w hwv]
        simp [hwv]
  case reg =>
    intro w hw
    rw [hcount]
    by_cases hwv : w = v
    · subst hwv
      exact Or.inr ⟨r, hr, hself⟩
    · rw [hother w hwv]
      exact h.reg w (((hnext w).mp hw).resolve_right hwv)
  case lru_mem =>
    intro w
    rw [hlru, List.mem_append, List.mem_singleton, hnext, h.lru_mem]
    by_cases hwv : w = v
    · subst hwv
      rw [hself]
      simp
    · rw [hother w hwv]
      simp [hwv]
  case home =>
    intro w hw hreg
    by_cases hwv : w = v
    · subst hwv
      omega
    · rw [hother w hwv] at hreg ⊢
      exact h.home w (((hnext w).mp hw).resolve_right hwv) hreg
  case slot =>
    intro w hw
    rw [hframe]
    by_cases hwv : w = v
    · subst hwv
      rcases hslot with ⟨h2, h3⟩ | ⟨h2, -⟩
      · rw [h2]
        exact h.slot w h3
      · exact Or.inl h2
    · rw [hother w hwv]
      exact h.slot w (((hnext w).mp hw).resolve_right hwv)
  case slot_inj =>
    intro w hw u hu h1 heq
    obtain ⟨hw', hws⟩ := hpos w hw h1
    obtain ⟨hu', hus⟩ := hpos u hu (heq ▸ h1)
    exact h.slot_inj w hw' u hu' (hws ▸ h1) (by rw [← hws, ← hus, heq])
  case slot_onto =>
    intro p h1 hp
    rw [hframe] at hp
    obtain ⟨w, hw, hwp⟩ := h.slot_onto p h1 hp
    refine ⟨w, (hnext w).mpr (Or.inl hw), ?_⟩
    by_cases hwv : w = v
    · subst hwv
      rcases hslot with ⟨h2, -⟩ | ⟨-, h3⟩
      · rw [h2, hwp]
      · exact absurd hw h3
    · rw [hother w hwv, hwp]

/-- **Every move keeps the invariant.** -/
theorem moveStep (h : cg.Inv) {m : Move} {cg' : Codegen} (hm : cg.moveStep m = some cg') :
    cg'.Inv := by
  obtain ⟨hen, rfl⟩ := moveStep_eq_some.mp hm
  cases m with
  | bump v => exact h.bump hen.1 hen.2
  | evict v => exact h.evict hen.1 hen.2.1 hen.2.2
  | reload v r =>
      obtain ⟨hv, hreg, hr, hfree⟩ := hen
      have hself : (cg.move (.reload v r)).vars v = ⟨r, (cg.vars v).stackPos⟩ :=
        Function.update_self ..
      refine h.enter (v := v) hr hfree (fun hmem => ?_) rfl (fun w => ?_) rfl rfl rfl ?_
        (Or.inl ⟨?_, hv⟩) (fun w hw => Function.update_of_ne hw ..)
      · have := ((h.lru_mem v).mp hmem).2
        omega
      · show w < cg.nextVar ↔ _
        omega
      · rw [hself]
      · rw [hself]
  | create r =>
      obtain ⟨hr, hfree⟩ := hen
      have hself : (cg.move (.create r)).vars cg.nextVar = ⟨r, -1⟩ := Function.update_self ..
      refine h.enter (v := cg.nextVar) hr hfree (fun hmem => ?_) rfl (fun w => ?_) rfl rfl rfl ?_
        (Or.inr ⟨?_, Nat.lt_irrefl _⟩) (fun w hw => Function.update_of_ne hw ..)
      · exact Nat.lt_irrefl _ ((h.lru_mem _).mp hmem).1
      · show w < cg.nextVar + 1 ↔ _
        omega
      · rw [hself]
      · rw [hself]
  | call args => exact { h with }

/-- Every state a sequence of moves leads to satisfies the invariant. -/
theorem run (h : cg.Inv) {ms : List Move} {cg' : Codegen}
    (hrun : Runs.run Codegen.moveStep cg ms = some cg') : cg'.Inv :=
  run_invariant (fun _ _ _ hs hm => hs.moveStep hm) h hrun

end Codegen.Inv

/-! ## The functions as moves -/

section Functions

variable {cg : Codegen}

/-- The conversion of a slot number to `int`. -/
theorem toInt_slot {n : ℕ} (h : n < 2 ^ 31) :
    toInt (sizeAdd n 1 : ℕ) = if n + 1 < 2 ^ 31 then (n : ℤ) + 1 else -(2 ^ 31) := by
  unfold toInt
  rw [sizeAdd_of_lt (by omega), Int.bmod_def]
  split_ifs <;> omega

/-- `arch_store` of a variable in a register. -/
theorem archStore_resident (fuel : ℕ) {v : ℕ} (hr : 0 ≤ (cg.vars v).reg) :
    archStore (fuel + 2) cg v = if 0 ≤ (cg.vars v).stackPos then
      some ((lruBump cg v).emit (.storeRegRBP64 (archGetRealReg cg v)
        (-(cg.vars v).stackPos * 8))) else none := by
  rw [archStore, variableRef, if_pos hr]
  rfl

/-- What `variable_store` does once the variable has its slot. -/
theorem store_tail (h : cg.Inv) {v : ℕ} (hv : v < cg.nextVar) (hr : 0 ≤ (cg.vars v).reg)
    (cg' : Codegen) (hcg' : cg' = ({ cg with frameSize := cg.frameWith v } : Codegen).setStackPos v
      (cg.slotOf v)) (fuel : ℕ) :
    (do let cg ← archStore (fuel + 2) cg' v
        let cg := cg.lruDeattach v
        let cg := cg.setStatus (cg.vars v).reg none
        some (cg.setReg v (-1))) = some (cg.move (.evict v)) := by
  have hmem : v ∈ cg.lruVariables := (h.lru_mem v).mpr ⟨hv, hr⟩
  have herase : (cg.lruVariables.erase v ++ [v]).erase v = cg.lruVariables.erase v := by
    rw [List.erase_append_right _ (h.lru_nodup.not_mem_erase)]
    simp
  have hpos := h.slotOf_pos hv
  have hslot : (cg'.vars v).stackPos = cg.slotOf v := by
    simp [hcg', Codegen.setStackPos]
  have hreg : (cg'.vars v).reg = (cg.vars v).reg := by
    simp [hcg', Codegen.setStackPos]
  rw [archStore_resident fuel (by omega), if_pos (by omega)]
  simp [hcg', Codegen.move, Codegen.setStackPos, Codegen.emit, lruBump, Codegen.lruDeattach,
    Codegen.lruAdd, Codegen.setStatus, Codegen.setReg, archGetRealReg, herase]

/-- **`variable_store` of a variable in a register is one eviction.**  It fails only
when the new slot's number does not fit an `int`. -/
theorem variableStore_resident (h : cg.Inv) (fuel : ℕ) {v : ℕ} (hv : v < cg.nextVar)
    (hr : 0 ≤ (cg.vars v).reg) : variableStore (fuel + 3) cg v = cg.moveStep (.evict v) := by
  have htail := store_tail h hv hr
  have hframe := h.frame_lt
  rw [variableStore]
  by_cases hnew : (cg.vars v).stackPos < 0
  · rw [if_pos hnew]
    have hslot : cg.slotOf v = cg.frameSize + 1 := if_pos hnew
    have hwith : cg.frameWith v = cg.frameSize + 1 := if_pos hnew
    have hint := toInt_slot hframe
    have hadd : sizeAdd cg.frameSize 1 = cg.frameSize + 1 := sizeAdd_of_lt (by omega)
    by_cases hfit : cg.frameSize + 1 < 2 ^ 31
    · rw [if_pos hfit, ← hslot] at hint
      have hen : cg.Enabled (.evict v) := ⟨hv, hr, hwith ▸ hfit⟩
      rw [moveStep_of_enabled hen]
      refine htail _ ?_ fuel
      dsimp only
      rw [hint, hadd, hwith]
    · rw [if_neg hfit] at hint
      have hnone : cg.moveStep (.evict v) = none := if_neg (fun hen => hfit (hwith ▸ hen.2.2))
      rw [hnone]
      dsimp only
      rw [hint, archStore_resident fuel (by simpa [Codegen.setStackPos] using hr), if_neg]
      · rfl
      · simp [Codegen.setStackPos]
  · rw [if_neg hnew]
    have hslot : cg.slotOf v = (cg.vars v).stackPos := if_neg hnew
    have hwith : cg.frameWith v = cg.frameSize := if_neg hnew
    have hen : cg.Enabled (.evict v) := ⟨hv, hr, hwith ▸ hframe⟩
    rw [moveStep_of_enabled hen]
    refine htail cg ?_ fuel
    rw [hslot, hwith]
    simp [Codegen.setStackPos]

/-! ### Allocation -/

/-- The first free register. -/
def Codegen.freeReg (cg : Codegen) : Option ℕ :=
  (List.range cg.registerCount).find? (fun i => (cg.registerStatus i).isNone)

/-- The least recently used variable. -/
def Codegen.victim (cg : Codegen) : ℕ := cg.lruVariables.headD 0

/-- The moves of `codegen_allocateReg`: none if there is a free register. -/
def Codegen.allocMoves (cg : Codegen) : List Move :=
  match cg.freeReg with
  | some _ => []
  | none => [.evict cg.victim]

@[simp] theorem countP_allocMoves (cg : Codegen) : cg.allocMoves.countP Move.isCreate = 0 := by
  unfold Codegen.allocMoves
  cases cg.freeReg <;> rfl

/-- The register `codegen_allocateReg` returns. -/
def Codegen.allocReg (cg : Codegen) : ℕ :=
  match cg.freeReg with
  | some i => i
  | none => (cg.vars cg.victim).reg.toNat

theorem codegenAllocateReg_eq_run (h : cg.Inv) (fuel : ℕ) :
    codegenAllocateReg (fuel + 4) cg =
      (run Codegen.moveStep cg cg.allocMoves).map (fun cg' => ((cg.allocReg : ℤ), cg')) := by
  rw [codegenAllocateReg]
  unfold Codegen.allocMoves Codegen.allocReg Codegen.freeReg Codegen.victim
  rcases hfind : (List.range cg.registerCount).find? (fun i => (cg.registerStatus i).isNone) with
    _ | i
  · rcases hlru : cg.lruVariables with _ | ⟨v, rest⟩
    -- no variable is in a register: there is nothing to evict
    · have hnone : cg.moveStep (.evict 0) = none := if_neg (fun hen => by
        have := (h.lru_mem 0).mpr ⟨hen.1, hen.2.1⟩
        rw [hlru] at this
        cases this)
      simp [hnone]
    · obtain ⟨hv, hr⟩ := (h.lru_mem v).mp (hlru ▸ List.mem_cons_self)
      have hreg : ((cg.vars v).reg.toNat : ℤ) = (cg.vars v).reg := Int.toNat_of_nonneg hr
      simp only [List.head?_cons, List.headD_cons, run_singleton,
        variableStore_resident h fuel hv hr, hreg]
      cases cg.moveStep (.evict v) <;> rfl
  · rfl

/-- After the moves of `codegen_allocateReg` the register it returns is free, and the
variables out of registers are as before. -/
theorem alloc_spec (h : cg.Inv) {cg' : Codegen}
    (hrun : run Codegen.moveStep cg cg.allocMoves = some cg') :
    cg.allocReg < cg'.registerCount ∧ cg'.registerStatus cg.allocReg = none ∧
      cg'.nextVar = cg.nextVar ∧ ∀ v, (cg.vars v).reg = -1 → cg'.vars v = cg.vars v := by
  unfold Codegen.allocMoves at hrun
  unfold Codegen.allocReg
  rcases hfind : cg.freeReg with _ | i
  · rw [hfind, run_singleton] at hrun
    obtain ⟨⟨hv, hr, -⟩, rfl⟩ := moveStep_eq_some.mp hrun
    obtain ⟨r, hlt, hreg, -⟩ := h.resident hv hr
    refine ⟨?_, Function.update_self .., rfl, fun v hv => Function.update_of_ne ?_ ..⟩
    · show (cg.vars cg.victim).reg.toNat < cg.registerCount
      omega
    · rintro rfl
      omega
  · rw [hfind, run_nil, Option.some.injEq] at hrun
    subst hrun
    have hmem := List.mem_of_find?_eq_some hfind
    have hfree := List.find?_some hfind
    exact ⟨List.mem_range.mp hmem, Option.isNone_iff_eq_none.mp hfree, rfl, fun _ _ => rfl⟩

/-! ### `variable_ref`, `variable_store`, `codegen_newVar` -/

/-- The moves of `variable_ref`. -/
def Codegen.refMoves (cg : Codegen) (v : ℕ) : List Move :=
  if (cg.vars v).reg ≥ 0 then [.bump v] else cg.allocMoves ++ [.reload v cg.allocReg]

@[simp] theorem countP_refMoves (cg : Codegen) (v : ℕ) :
    (cg.refMoves v).countP Move.isCreate = 0 := by
  unfold Codegen.refMoves
  split_ifs <;> simp [Move.isCreate]

/-- The register `variable_ref` returns. -/
def Codegen.refReg (cg : Codegen) (v : ℕ) : ℤ :=
  if (cg.vars v).reg ≥ 0 then (cg.vars v).reg else cg.allocReg

theorem variableRef_eq_run (h : cg.Inv) (fuel : ℕ) {v : ℕ} (hv : v < cg.nextVar) :
    variableRef (fuel + 5) cg v =
      (run Codegen.moveStep cg (cg.refMoves v)).map (fun cg' => (cg.refReg v, cg')) := by
  rw [variableRef]
  unfold Codegen.refMoves Codegen.refReg
  by_cases hr : (cg.vars v).reg ≥ 0
  · have hen : cg.Enabled (.bump v) := ⟨hv, hr⟩
    rw [if_pos hr, if_pos hr, if_pos hr, run_singleton, moveStep_of_enabled hen]
    rfl
  · rw [if_neg hr, if_neg hr, if_neg hr, codegenAllocateReg_eq_run h, run_append]
    have hout : (cg.vars v).reg = -1 := by
      rcases h.reg v hv with h1 | ⟨r, -, h1⟩ <;> omega
    rcases halloc : run Codegen.moveStep cg cg.allocMoves with _ | cg'
    · rfl
    · obtain ⟨hlt, hfree, hnext, hsame⟩ := alloc_spec h halloc
      have hvars := hsame v hout
      have hen : cg'.Enabled (.reload v cg.allocReg) :=
        ⟨hnext ▸ hv, by rw [hvars, hout], hlt, hfree⟩
      have hpos : 0 < (cg'.vars v).stackPos := by
        rw [hvars]
        exact h.home v hv hout
      simp only [Option.map_some, Option.bind_some, run_singleton, moveStep_of_enabled hen]
      simp [Codegen.move, archLoadReg, Codegen.setReg, Codegen.setStatus, Codegen.emit,
        Codegen.lruAdd, archGetRealReg, hpos]

/-- After the moves of `variable_ref` the variable is in the register it returns. -/
theorem ref_spec (h : cg.Inv) {v : ℕ} (hv : v < cg.nextVar) {cg' : Codegen}
    (hrun : run Codegen.moveStep cg (cg.refMoves v) = some cg') :
    (cg'.vars v).reg = cg.refReg v ∧ 0 ≤ (cg'.vars v).reg ∧
      (cg'.vars v).stackPos = (cg.vars v).stackPos ∧ cg'.nextVar = cg.nextVar := by
  unfold Codegen.refMoves at hrun
  unfold Codegen.refReg
  by_cases hr : (cg.vars v).reg ≥ 0
  · rw [if_pos hr, run_singleton] at hrun
    obtain ⟨-, rfl⟩ := moveStep_eq_some.mp hrun
    rw [if_pos hr]
    exact ⟨rfl, hr, rfl, rfl⟩
  · rw [if_neg hr, run_append] at hrun
    obtain ⟨cg₁, halloc, hload⟩ := Option.bind_eq_some_iff.mp hrun
    have hout : (cg.vars v).reg = -1 := by
      rcases h.reg v hv with h1 | ⟨r, -, h1⟩ <;> omega
    obtain ⟨-, -, hnext, hsame⟩ := alloc_spec h halloc
    rw [run_singleton] at hload
    obtain ⟨-, rfl⟩ := moveStep_eq_some.mp hload
    have hself : (cg₁.move (.reload v cg.allocReg)).vars v =
        ⟨cg.allocReg, (cg₁.vars v).stackPos⟩ := Function.update_self ..
    rw [if_neg hr, hself, hsame v hout]
    exact ⟨rfl, Int.natCast_nonneg _, rfl, hnext⟩

/-- The moves of `variable_store`. -/
def Codegen.storeMoves (cg : Codegen) (v : ℕ) : List Move :=
  if (cg.vars v).reg ≥ 0 then [.evict v]
  else cg.allocMoves ++ [.reload v cg.allocReg, .evict v]

@[simp] theorem countP_storeMoves (cg : Codegen) (v : ℕ) :
    (cg.storeMoves v).countP Move.isCreate = 0 := by
  unfold Codegen.storeMoves
  split_ifs <;> simp [Move.isCreate]

theorem variableStore_eq_run (h : cg.Inv) (fuel : ℕ) {v : ℕ} (hv : v < cg.nextVar) :
    variableStore (fuel + 7) cg v = run Codegen.moveStep cg (cg.storeMoves v) := by
  unfold Codegen.storeMoves
  by_cases hr : (cg.vars v).reg ≥ 0
  · rw [if_pos hr, run_singleton]
    exact variableStore_resident h _ hv hr
  · have hout : (cg.vars v).reg = -1 := by
      rcases h.reg v hv with h1 | ⟨r, -, h1⟩ <;> omega
    have hpos := h.home v hv hout
    have hmoves : cg.allocMoves ++ [.reload v cg.allocReg, .evict v] =
        cg.refMoves v ++ [.evict v] := by
      unfold Codegen.refMoves
      rw [if_neg hr]
      simp
    rw [if_neg hr, hmoves, run_append, variableStore, if_neg (by omega)]
    dsimp only
    rw [archStore, if_pos (by omega), variableRef_eq_run h fuel hv]
    rcases href : run Codegen.moveStep cg (cg.refMoves v) with _ | cg'
    · rfl
    · obtain ⟨-, hr', hslot, hnext⟩ := ref_spec h hv href
      have hneg : ¬ (cg'.vars v).stackPos < 0 := by omega
      have hwith : cg'.frameWith v = cg'.frameSize := if_neg hneg
      have hen : cg'.Enabled (.evict v) := ⟨hnext ▸ hv, hr', hwith ▸ (h.run href).frame_lt⟩
      rw [Option.bind_some, run_singleton, moveStep_of_enabled hen]
      simp [Codegen.move, Codegen.emit, Codegen.lruDeattach, Codegen.setStatus, Codegen.setReg,
        archGetRealReg, Codegen.slotOf, hwith, hneg]

/-- The moves of `codegen_newVar`. -/
def Codegen.newVarMoves (cg : Codegen) : List Move := cg.allocMoves ++ [.create cg.allocReg]

@[simp] theorem countP_newVarMoves (cg : Codegen) :
    cg.newVarMoves.countP Move.isCreate = 1 := by
  simp [Codegen.newVarMoves, Move.isCreate]

theorem codegenNewVar_eq_run (h : cg.Inv) :
    codegenNewVar cg = run Codegen.moveStep cg cg.newVarMoves := by
  unfold codegenNewVar Codegen.newVarMoves callDepth
  rw [codegenAllocateReg_eq_run h, run_append]
  rcases halloc : run Codegen.moveStep cg cg.allocMoves with _ | cg'
  · rfl
  · obtain ⟨hlt, hfree, -⟩ := alloc_spec h halloc
    have hen : cg'.Enabled (.create cg.allocReg) := ⟨hlt, hfree⟩
    rw [Option.bind_some, run_singleton, moveStep_of_enabled hen]
    rfl

/-! ### `codegen_popBlock` -/

/-- The variables held in the given registers. -/
def Codegen.held (cg : Codegen) (regs : List ℕ) : List ℕ := regs.filterMap cg.registerStatus

/-- The loop over registers evicts the variables they hold. -/
theorem storeRegisters_eq_run (regs : List ℕ) (hregs : regs.Nodup) (h : cg.Inv) :
    regs.foldlM storeRegister cg =
      run Codegen.moveStep cg ((cg.held regs).map Move.evict) := by
  induction regs generalizing cg with
  | nil => rfl
  | cons i regs ih =>
      obtain ⟨hi, hregs⟩ := List.nodup_cons.mp hregs
      rw [List.foldlM_cons]
      unfold Codegen.held
      rcases hstat : cg.registerStatus i with _ | v
      · rw [List.filterMap_cons_none hstat]
        have hsame : storeRegister cg i = some cg := by
          unfold storeRegister
          rw [hstat]
        rw [hsame]
        exact ih hregs h
      · obtain ⟨hv, -, hreg⟩ := (h.status i v).mp hstat
        have hstore : storeRegister cg i = cg.moveStep (.evict v) := by
          unfold storeRegister
          rw [hstat]
          exact variableStore_resident h 5 hv (by omega)
        rw [List.filterMap_cons_some hstat, hstore, List.map_cons, run_cons]
        rcases hm : cg.moveStep (.evict v) with _ | cg'
        · rfl
        · show List.foldlM storeRegister cg' regs = run Codegen.moveStep cg' _
          rw [ih hregs (h.moveStep hm)]
          obtain ⟨-, rfl⟩ := moveStep_eq_some.mp hm
          -- the eviction frees register `i`, which the rest of the loop does not look at
          have hrest : regs.filterMap (cg.move (.evict v)).registerStatus =
              regs.filterMap cg.registerStatus := by
            apply List.filterMap_congr
            intro j hj
            refine Function.update_of_ne ?_ ..
            rintro rfl
            exact hi ((show (cg.vars v).reg.toNat = i by omega) ▸ hj)
          unfold Codegen.held
          rw [hrest]

/-- The moves of `codegen_popBlock`. -/
def Codegen.popMoves (cg : Codegen) : List Move :=
  (cg.held (List.range cg.registerCount)).map Move.evict

@[simp] theorem countP_popMoves (cg : Codegen) : cg.popMoves.countP Move.isCreate = 0 := by
  simp [Codegen.popMoves, Move.isCreate, Function.comp_def]

theorem codegenPopBlock_eq_run (h : cg.Inv) :
    codegenPopBlock cg = run Codegen.moveStep cg cg.popMoves :=
  storeRegisters_eq_run _ List.nodup_range h

/-- Evictions only free registers, and those of the variables evicted they do free. -/
theorem evicts_status {vs : List ℕ} (h : cg.Inv) {cg' : Codegen}
    (hrun : run Codegen.moveStep cg (vs.map Move.evict) = some cg') {i v : ℕ}
    (hstat : cg'.registerStatus i = some v) : cg.registerStatus i = some v ∧ v ∉ vs := by
  induction vs generalizing cg with
  | nil =>
      rw [List.map_nil, run_nil, Option.some.injEq] at hrun
      subst hrun
      exact ⟨hstat, List.not_mem_nil⟩
  | cons w vs ih =>
      obtain ⟨cg₁, hm, hrest⟩ := run_cons_eq_some.mp hrun
      obtain ⟨hstat₁, hnotin⟩ := ih (h.moveStep hm) hrest
      obtain ⟨-, rfl⟩ := moveStep_eq_some.mp hm
      change Function.update cg.registerStatus (cg.vars w).reg.toNat none i = some v at hstat₁
      rw [Function.update_apply] at hstat₁
      split_ifs at hstat₁ with hi
      refine ⟨hstat₁, fun hmem => ?_⟩
      rcases List.mem_cons.mp hmem with rfl | hmem
      · obtain ⟨-, -, hreg⟩ := (h.status i v).mp hstat₁
        omega
      · exact hnotin hmem

/-- After `codegen_popBlock` no variable is in a register. -/
theorem pop_spec (h : cg.Inv) {cg' : Codegen}
    (hrun : run Codegen.moveStep cg cg.popMoves = some cg') : cg'.lruVariables = [] := by
  have h' := h.run hrun
  rw [List.eq_nil_iff_forall_not_mem]
  intro v hmem
  obtain ⟨hv, hr⟩ := (h'.lru_mem v).mp hmem
  obtain ⟨r, -, -, hstat⟩ := h'.resident hv hr
  obtain ⟨hold, hnotin⟩ := evicts_status h hrun hstat
  have hlt : r < cg.registerCount := ((h.status r v).mp hold).2.1
  exact hnotin (List.mem_filterMap.mpr ⟨r, List.mem_range.mpr hlt, hold⟩)

/-! ### `arch_functionCall` -/

/-- The state `cg'` in the argument loop, started in `cg` with all variables out of
registers: loads and register moves have been emitted, and argument variables may
have a register. -/
def Passing (cg : Codegen) (args : List ℕ) (cg' : Codegen) : Prop :=
  ∃ vars es, cg' = { cg with vars := vars, code := cg.code ++ es } ∧
    (∀ e ∈ es, cg.PassesArgument e) ∧
    ∀ v, vars v = cg.vars v ∨ v ∈ args ∧ (vars v).stackPos = (cg.vars v).stackPos

namespace Passing

variable {args : List ℕ} {cg' : Codegen}

theorem stackPos (hp : Passing cg args cg') (v : ℕ) :
    (cg'.vars v).stackPos = (cg.vars v).stackPos := by
  obtain ⟨vars, es, rfl, -, hvars⟩ := hp
  rcases hvars v with h1 | h1
  · exact congrArg Variable.stackPos h1
  · exact h1.2

theorem emit (hp : Passing cg args cg') {e : Emit} (he : cg.PassesArgument e) :
    Passing cg args (cg'.emit e) := by
  obtain ⟨vars, es, rfl, hes, hvars⟩ := hp
  refine ⟨vars, es ++ [e], ?_, ?_, hvars⟩
  · simp [Codegen.emit]
  · intro e' he'
    rcases List.mem_append.mp he' with h1 | h1
    · exact hes e' h1
    · rwa [List.mem_singleton.mp h1]

theorem setReg (hp : Passing cg args cg') {v : ℕ} (hv : v ∈ args) (reg : ℤ) :
    Passing cg args (cg'.setReg v reg) := by
  have hslot := hp.stackPos v
  obtain ⟨vars, es, rfl, hes, hvars⟩ := hp
  refine ⟨Function.update vars v ⟨reg, (vars v).stackPos⟩, es, rfl, hes, fun w => ?_⟩
  by_cases hwv : w = v
  · subst hwv
    rw [Function.update_self]
    exact Or.inr ⟨hv, hslot⟩
  · rw [Function.update_of_ne hwv]
    exact hvars w

/-- One round of the argument loop. -/
theorem round (hargs : ∀ v ∈ args, v < cg.nextVar ∧ 1 ≤ (cg.vars v).stackPos)
    (hp : Passing cg args cg') (i : ℕ) :
    ∃ cg'', passArgument args cg' i = some cg'' ∧ Passing cg args cg'' := by
  unfold passArgument
  rcases hget : args[i]? with _ | v
  · exact ⟨cg', rfl, hp⟩
  · have hmem : v ∈ args := List.mem_of_getElem? hget
    have hset := hp.setReg hmem (argRegs.getD i 0 : ℕ)
    obtain ⟨hv, hslot⟩ := hargs v hmem
    have hpos : 0 < ((cg'.setReg v (argRegs.getD i 0 : ℕ)).vars v).stackPos := by
      rw [hset.stackPos]
      omega
    dsimp only
    split_ifs with hreg
    · refine ⟨_, if_pos hpos, hset.emit ⟨v, hv, hslot, ?_⟩⟩
      rw [hset.stackPos]
    · exact ⟨_, rfl, hp.emit trivial⟩

end Passing

/-- The whole argument loop. -/
theorem passArguments_passing {args : List ℕ}
    (hargs : ∀ v ∈ args, v < cg.nextVar ∧ 1 ≤ (cg.vars v).stackPos) (is : List ℕ)
    {cg' : Codegen} (hp : Passing cg args cg') :
    ∃ cg'', is.foldlM (passArgument args) cg' = some cg'' ∧ Passing cg args cg'' := by
  induction is generalizing cg' with
  | nil => exact ⟨cg', rfl, hp⟩
  | cons i is ih =>
      obtain ⟨cg₁, heq, hp₁⟩ := hp.round hargs i
      rw [List.foldlM_cons, heq]
      exact ih hp₁

/-- Taking the registers away from the argument variables again. -/
theorem foldl_setReg (args : List ℕ) (cg : Codegen) :
    args.foldl (fun cg v => cg.setReg v (-1)) cg = { cg with
      vars := fun v => if v ∈ args then { cg.vars v with reg := -1 } else cg.vars v } := by
  induction args generalizing cg with
  | nil => simp
  | cons a args ih =>
      rw [List.foldl_cons, ih]
      simp only [Codegen.setReg]
      congr 1
      funext v
      by_cases hva : v = a
      · subst hva
        simp
      · simp [hva]

/-- **`arch_functionCall`** evicts every variable and then emits loads, register
moves and the call. -/
theorem archFunctionCall_eq_run (h : cg.Inv) (label : Label) {args : List ℕ}
    (hlen : args.length < 7) (hargs : ∀ v ∈ args, v < cg.nextVar) :
    ∃ es, (archFunctionCall cg label args).map Prod.fst =
        run Codegen.moveStep cg (cg.popMoves ++ [.call es]) ∧
      ∀ cg', run Codegen.moveStep cg cg.popMoves = some cg' → cg'.Enabled (.call es) := by
  unfold archFunctionCall
  rw [if_pos hlen]
  have hpop := codegenPopBlock_eq_run h
  unfold codegenPopBlock at hpop
  rw [hpop]
  simp only [run_append, run_singleton]
  rcases hrun : run Codegen.moveStep cg cg.popMoves with _ | cg₁
  · exact ⟨[], rfl, fun _ hcg => by cases hcg⟩
  · have h₁ := h.run hrun
    have hempty := pop_spec h hrun
    have hnext : cg₁.nextVar = cg.nextVar := by
      have hcount := (counts_run hrun).2
      rwa [countP_popMoves, Nat.add_zero] at hcount
    have hout : ∀ v ∈ args, (cg₁.vars v).reg = -1 := by
      intro v hv
      rcases h₁.reg v (hnext ▸ hargs v hv) with hr | ⟨r, -, hr⟩
      · exact hr
      · have := (h₁.lru_mem v).mpr ⟨hnext ▸ hargs v hv, by omega⟩
        rw [hempty] at this
        cases this
    have hpos : ∀ v ∈ args, v < cg₁.nextVar ∧ 1 ≤ (cg₁.vars v).stackPos := fun v hv =>
      ⟨hnext ▸ hargs v hv, h₁.home v (hnext ▸ hargs v hv) (hout v hv)⟩
    have hstart : Passing cg₁ args cg₁ := ⟨cg₁.vars, [], by simp, by simp, fun v => Or.inl rfl⟩
    obtain ⟨cg₂, hloop, vars, es, rfl, hes, hvars⟩ :=
      passArguments_passing hpos (List.range 6) hstart
    have hreset : (fun v => if v ∈ args then { vars v with reg := -1 } else vars v) =
        cg₁.vars := by
      funext v
      by_cases hv : v ∈ args
      · have hslot : (vars v).stackPos = (cg₁.vars v).stackPos := by
          rcases hvars v with h2 | h2
          · rw [h2]
          · exact h2.2
        show (if v ∈ args then (⟨-1, (vars v).stackPos⟩ : Variable) else vars v) = cg₁.vars v
        rw [if_pos hv, hslot, ← hout v hv]
      · rw [if_neg hv]
        exact (hvars v).resolve_right (fun h2 => hv h2.1)
    have hen : cg₁.Enabled (.call es) := ⟨hempty, hes⟩
    refine ⟨es, ?_, fun _ hcg => Option.some.inj hcg ▸ hen⟩
    rw [Option.bind_some, moveStep_of_enabled hen]
    simp only [Option.bind_eq_bind, Option.bind_some, hloop, foldl_setReg, hreset,
      Option.map_some, Codegen.emit, Codegen.move, List.append_assoc]

end Functions
