/-
# The register tables in order of last use

The allocator keeps `registerStatus`, the `reg` fields of the variables and the list
`lruVariables`, and its functions, which call each other, change all three.

Whatever calls are made after `codegen_initFunction`, the tables say the same, the list
holds the variables in registers in order of their last creation, reload or `variable_ref`
(`ordered_run`, `tables_of_inv`), `codegen_allocateReg` evicts the first of them and only
when no register is free (`allocatesLru_of_inv`), and the variables with a stack slot have
one each.
-/
import MCompiler.CodegenHomes
import MCompiler.Lib.Recency

open Runs Recency

/-! ## Calls of the allocator -/

/-- A call of the allocator. -/
inductive AllocOp where
  | newVar
  | ref (var : ℕ)
  | store (var : ℕ)
  | popBlock
  | functionCall (label : Label) (args : List ℕ)

namespace Codegen

variable (cg : Codegen)

/-- One call. -/
def step : AllocOp → Option Codegen
  | .newVar => codegenNewVar cg
  | .ref var => (variableRef callDepth cg var).map Prod.snd
  | .store var => variableStore callDepth cg var
  | .popBlock => codegenPopBlock cg
  | .functionCall label args => (archFunctionCall cg label args).map Prod.fst

/-- Variables are used after they have been created, and calls have at most six
arguments. -/
def Allowed : AllocOp → Prop
  | .newVar => True
  | .ref var => var < cg.nextVar
  | .store var => var < cg.nextVar
  | .popBlock => True
  | .functionCall _ args => args.length ≤ 6 ∧ ∀ var ∈ args, var < cg.nextVar

instance (op : AllocOp) : Decidable (cg.Allowed op) := by
  cases op <;> unfold Allowed <;> infer_instance

/-- Whether a variable is in a register. -/
def resident (var : ℕ) : Bool := decide (0 ≤ (cg.vars var).reg)

/-- No variable is in a register. -/
def RegistersEmpty : Prop :=
  (∀ r, cg.registerStatus r = none) ∧ ∀ v < cg.nextVar, (cg.vars v).reg = -1

/-- What holds of the tables after the uses of variables in `history`. -/
structure Tables (history : List ℕ) : Prop where
  /-- `registerStatus` and the variables' `reg` fields say the same. -/
  status : ∀ r < cg.registerCount, ∀ v < cg.nextVar,
    cg.registerStatus r = some v ↔ (cg.vars v).reg = r
  known : ∀ r v, cg.registerStatus r = some v → r < cg.registerCount ∧ v < cg.nextVar
  reg : ∀ v < cg.nextVar, (cg.vars v).reg = -1 ∨
    ∃ r < cg.registerCount, (cg.vars v).reg = (r : ℤ)
  /-- No two variables share a register. -/
  apart : ∀ v < cg.nextVar, ∀ w < cg.nextVar, 0 ≤ (cg.vars v).reg →
    (cg.vars v).reg = (cg.vars w).reg → v = w
  /-- The list holds the variables in registers, each once, in order of last use. -/
  lru_mem : ∀ v, v ∈ cg.lruVariables ↔ v < cg.nextVar ∧ 0 ≤ (cg.vars v).reg
  lru_nodup : cg.lruVariables.Nodup
  lru_order : cg.lruVariables.Pairwise (UsedBefore history)
  /-- The stack slots are `1 .. frameSize`, and no two variables share one. -/
  slot : ∀ v < cg.nextVar, (cg.vars v).stackPos = -1 ∨
    1 ≤ (cg.vars v).stackPos ∧ (cg.vars v).stackPos ≤ cg.frameSize
  slot_apart : ∀ v < cg.nextVar, ∀ w < cg.nextVar, (cg.vars v).stackPos ≠ -1 →
    (cg.vars v).stackPos = (cg.vars w).stackPos → v = w

/-- `codegen_allocateReg` returns a free register.  It changes nothing if one is free,
and otherwise evicts the variable whose last use is before those of all the others. -/
def AllocatesLru (history : List ℕ) : Prop :=
  ∀ r cg', codegenAllocateReg callDepth cg = some (r, cg') →
    (0 ≤ r ∧ r < cg.registerCount ∧ cg'.registerStatus r.toNat = none) ∧
    ((∃ i < cg.registerCount, cg.registerStatus i = none) → cg' = cg) ∧
    ((∀ i < cg.registerCount, cg.registerStatus i ≠ none) →
      ∃ v < cg.nextVar, (cg.vars v).reg = r ∧ (cg'.vars v).reg = -1 ∧
        (∀ w, w ≠ v → cg'.vars w = cg.vars w) ∧
        ∀ w < cg.nextVar, w ≠ v → 0 ≤ (cg.vars w).reg → UsedBefore history v w)

end Codegen

/-- The variables created or referred to by calls, in order, when `next` is the number of
the next variable.  What else `codegen_popBlock`, a function call or an eviction refers to
is out of registers when they return. -/
def usedVars : ℕ → List AllocOp → List ℕ
  | _, [] => []
  | next, .newVar :: ops => next :: usedVars (next + 1) ops
  | next, .ref var :: ops => var :: usedVars next ops
  | next, .store var :: ops => var :: usedVars next ops
  | next, .popBlock :: ops => usedVars next ops
  | next, .functionCall _ _ :: ops => usedVars next ops

/-- The number of variables created by calls. -/
def newVars (ops : List AllocOp) : ℕ :=
  ops.countP (fun op => match op with | .newVar => true | _ => false)

/-! ## Calls as actions of a session -/

/-- The call as an action of a client. -/
def AllocOp.toSession : AllocOp → SessionOp
  | .newVar => .newVar
  | .ref var => .ref var
  | .store var => .store var
  | .popBlock => .popBlock
  | .functionCall label args => .functionCall label args (fun _ => 0)

/-- A session in which no variable has been written. -/
def Codegen.idle (cg : Codegen) : Session :=
  { cg := cg, machine := ⟨fun _ => 0, fun _ => 0⟩, value := fun _ => none, granted := none }

section Steps

variable {cg cg' : Codegen} {op : AllocOp}

theorem Codegen.Inv.idle (h : cg.Inv) : cg.idle.Good :=
  ⟨h, fun _ _ => rfl, fun _ _ hw => (by cases hw), fun _ _ hg => (by cases hg)⟩

theorem map_step_idle (cg : Codegen) (op : AllocOp) :
    (cg.idle.step op.toSession).map Session.cg = cg.step op := by
  cases op with
  | ref var =>
      apply (Option.map_map ..).trans
      rfl
  | functionCall label args =>
      apply (Option.map_map ..).trans
      rfl
  | newVar =>
      apply (Option.map_map ..).trans
      exact Option.map_id'
  | store var =>
      apply (Option.map_map ..).trans
      exact Option.map_id'
  | popBlock =>
      apply (Option.map_map ..).trans
      exact Option.map_id'

theorem allowed_idle : cg.idle.Allowed op.toSession ↔ cg.Allowed op := by
  cases op <;> exact Iff.rfl

/-- **Every call keeps the invariant.** -/
theorem Codegen.Inv.step (h : cg.Inv) (ha : cg.Allowed op) (hstep : cg.step op = some cg') :
    cg'.Inv := by
  rw [← map_step_idle] at hstep
  obtain ⟨s, hs, rfl⟩ := Option.map_eq_some_iff.mp hstep
  exact (h.idle.step (allowed_idle.mpr ha) hs).inv

/-- **No call fails** while the variables can be numbered. -/
theorem step_total (h : cg.Inv) (hpos : 0 < cg.registerCount) (hlt : cg.nextVar < 2 ^ 31)
    (ha : cg.Allowed op) :
    ∃ cg', cg.step op = some cg' ∧ cg'.registerCount = cg.registerCount ∧
      cg'.nextVar = cg.nextVar + newVars [op] := by
  obtain ⟨s, hs, hcount, hnext⟩ := h.idle.step_total hpos hlt (allowed_idle.mpr ha)
  refine ⟨s.cg, ?_, hcount, hnext.trans ?_⟩
  · rw [← map_step_idle, hs]
    rfl
  · cases op <;> rfl

end Steps

/-! ## The order of the list -/

/-- The list holds the variables in registers in order of their last use. -/
def Codegen.Ordered (cg : Codegen) (history : List ℕ) : Prop :=
  cg.lruVariables = byLastUse history cg.resident

/-- The variables a move uses. -/
def Codegen.used (cg : Codegen) : Move → List ℕ
  | .bump var => [var]
  | .evict _ => []
  | .reload var _ => [var]
  | .create _ => [cg.nextVar]
  | .call _ => []

section Order

variable {cg cg' : Codegen} {history : List ℕ}

/-- Taking a variable out of its register leaves the others where they are. -/
theorem resident_update {vars : ℕ → Variable} {v w : ℕ} {x : Variable}
    (hvars : cg'.vars = Function.update vars v x) (hsame : cg.vars = vars) (hw : w ≠ v) :
    cg'.resident w = cg.resident w := by
  unfold Codegen.resident
  rw [hvars, hsame, Function.update_of_ne hw]

/-- **Every move keeps the list in order.** -/
theorem ordered_move (h : cg.Inv) (ho : cg.Ordered history) {m : Move} (hm : cg.Enabled m) :
    (cg.move m).Ordered (history ++ cg.used m) := by
  unfold Codegen.Ordered at ho ⊢
  cases m with
  | bump v =>
      have hres : cg.resident v = true := decide_eq_true hm.2
      have hsame : (cg.move (.bump v)).resident = cg.resident := rfl
      rw [hsame]
      refine Eq.trans ?_ (byLastUse_use hres).symm
      rw [← ho]
      rfl
  | evict v =>
      have hself : (cg.move (.evict v)).resident v = false := by
        unfold Codegen.resident
        rw [show (cg.move (.evict v)).vars v = ⟨-1, cg.slotOf v⟩ from Function.update_self ..]
        rfl
      have hother : ∀ w, w ≠ v → (cg.move (.evict v)).resident w = cg.resident w :=
        fun w hw => resident_update rfl rfl hw
      refine Eq.trans ?_ (congrArg (byLastUse · _) (List.append_nil history).symm)
      refine Eq.trans ?_ (byLastUse_leave hself hother).symm
      rw [← ho]
      rfl
  | reload v r =>
      obtain ⟨-, hout, -, -⟩ := hm
      have hnot : v ∉ byLastUse history cg.resident := by
        rw [← ho, h.lru_mem]
        omega
      have hself : (cg.move (.reload v r)).resident v = true := by
        apply decide_eq_true
        rw [show (cg.move (.reload v r)).vars v = ⟨r, (cg.vars v).stackPos⟩ from
          Function.update_self ..]
        exact Int.natCast_nonneg r
      have hother : ∀ w, w ≠ v → (cg.move (.reload v r)).resident w = cg.resident w :=
        fun w hw => resident_update rfl rfl hw
      refine Eq.trans ?_ (byLastUse_enter hnot hself hother).symm
      rw [← ho]
      rfl
  | create r =>
      have hnot : cg.nextVar ∉ byLastUse history cg.resident := by
        rw [← ho, h.lru_mem]
        omega
      have hself : (cg.move (.create r)).resident cg.nextVar = true := by
        apply decide_eq_true
        rw [show (cg.move (.create r)).vars cg.nextVar = ⟨r, -1⟩ from Function.update_self ..]
        exact Int.natCast_nonneg r
      have hother : ∀ w, w ≠ cg.nextVar → (cg.move (.create r)).resident w = cg.resident w :=
        fun w hw => resident_update rfl rfl hw
      refine Eq.trans ?_ (byLastUse_enter hnot hself hother).symm
      rw [← ho]
      rfl
  | call es =>
      refine Eq.trans ho (congrArg (byLastUse · _) (List.append_nil history).symm)

/-- Evictions use nothing. -/
theorem ordered_evicts {vs : List ℕ} (h : cg.Inv) (ho : cg.Ordered history)
    (hrun : run Codegen.moveStep cg (vs.map Move.evict) = some cg') : cg'.Ordered history := by
  induction vs generalizing cg with
  | nil =>
      rw [List.map_nil, run_nil, Option.some.injEq] at hrun
      exact hrun ▸ ho
  | cons v vs ih =>
      obtain ⟨cg₁, hm, hrest⟩ := run_cons_eq_some.mp hrun
      have h₁ := h.moveStep hm
      obtain ⟨hen, rfl⟩ := moveStep_eq_some.mp hm
      apply ih h₁ _ hrest
      have hmove := ordered_move h ho hen
      rwa [show cg.used (.evict v) = [] from rfl, List.append_nil] at hmove

/-- Making a register free uses nothing. -/
theorem ordered_alloc (h : cg.Inv) (ho : cg.Ordered history)
    (hrun : run Codegen.moveStep cg cg.allocMoves = some cg') : cg'.Ordered history := by
  unfold Codegen.allocMoves at hrun
  rcases hfind : cg.freeReg with _ | i
  · rw [hfind] at hrun
    rw [show [Move.evict cg.victim] = [cg.victim].map Move.evict from rfl] at hrun
    exact ordered_evicts h ho hrun
  · rw [hfind, run_nil, Option.some.injEq] at hrun
    exact hrun ▸ ho

/-- After the moves of `variable_ref` the variable is the last one used. -/
theorem ordered_ref (h : cg.Inv) (ho : cg.Ordered history) {v : ℕ}
    (hrun : run Codegen.moveStep cg (cg.refMoves v) = some cg') :
    cg'.Ordered (history ++ [v]) := by
  unfold Codegen.refMoves at hrun
  split_ifs at hrun with hr
  · rw [run_singleton] at hrun
    obtain ⟨hen, rfl⟩ := moveStep_eq_some.mp hrun
    exact ordered_move h ho hen
  · rw [run_append] at hrun
    obtain ⟨cg₁, halloc, hload⟩ := Option.bind_eq_some_iff.mp hrun
    rw [run_singleton] at hload
    obtain ⟨hen, rfl⟩ := moveStep_eq_some.mp hload
    exact ordered_move (h.run halloc) (ordered_alloc h ho halloc) hen

/-- After the moves of `variable_store` the variable is out of registers, so that its
having been used makes no difference. -/
theorem ordered_store (h : cg.Inv) (ho : cg.Ordered history) {v : ℕ}
    (hrun : run Codegen.moveStep cg (cg.storeMoves v) = some cg') :
    cg'.Ordered (history ++ [v]) := by
  have hevict : ∀ cg₁ : Codegen, cg₁.Inv → ∀ hist, cg₁.Ordered hist →
      cg₁.moveStep (.evict v) = some cg' → cg'.Ordered hist ∧ cg'.resident v = false := by
    intro cg₁ h₁ hist ho₁ hm
    have hone : run Codegen.moveStep cg₁ ([v].map Move.evict) = some cg' :=
      (run_singleton _ _).trans hm
    refine ⟨ordered_evicts h₁ ho₁ hone, ?_⟩
    obtain ⟨-, rfl⟩ := moveStep_eq_some.mp hm
    unfold Codegen.resident
    rw [show (cg₁.move (.evict v)).vars v = ⟨-1, cg₁.slotOf v⟩ from Function.update_self ..]
    rfl
  by_cases hr : (cg.vars v).reg ≥ 0
  · unfold Codegen.storeMoves at hrun
    rw [if_pos hr, run_singleton] at hrun
    obtain ⟨ho', hout⟩ := hevict cg h history ho hrun
    exact Eq.trans ho' (byLastUse_skip hout).symm
  · have hmoves : cg.storeMoves v = cg.refMoves v ++ [.evict v] := by
      unfold Codegen.storeMoves Codegen.refMoves
      rw [if_neg hr, if_neg hr, List.append_assoc]
      rfl
    rw [hmoves, run_append] at hrun
    obtain ⟨cg₁, href, hlast⟩ := Option.bind_eq_some_iff.mp hrun
    rw [run_singleton] at hlast
    exact (hevict cg₁ (h.run href) _ (ordered_ref h ho href) hlast).1

end Order

/-! ## The tables -/

section Tables

variable {cg cg' : Codegen} {history : List ℕ}

/-- **Every call keeps the list in order.** -/
theorem ordered_step (h : cg.Inv) (ho : cg.Ordered history) {op : AllocOp} (ha : cg.Allowed op)
    (hstep : cg.step op = some cg') : cg'.Ordered (history ++ usedVars cg.nextVar [op]) := by
  cases op with
  | newVar =>
      have hrun := (codegenNewVar_eq_run h).symm.trans hstep
      rw [Codegen.newVarMoves, run_append] at hrun
      obtain ⟨cg₁, halloc, hcreate⟩ := Option.bind_eq_some_iff.mp hrun
      rw [run_singleton] at hcreate
      obtain ⟨hen, rfl⟩ := moveStep_eq_some.mp hcreate
      have hmove := ordered_move (h.run halloc) (ordered_alloc h ho halloc) hen
      have hnext : cg₁.nextVar = cg.nextVar := (alloc_spec h halloc).2.2.1
      show Codegen.Ordered _ (history ++ [cg.nextVar])
      rw [← hnext]
      exact hmove
  | ref v =>
      obtain ⟨⟨reg, cg₁⟩, hcg, rfl⟩ := Option.map_eq_some_iff.mp hstep
      rw [callDepth, variableRef_eq_run h 3 ha] at hcg
      obtain ⟨cg₂, hrun, heq⟩ := Option.map_eq_some_iff.mp hcg
      obtain ⟨-, rfl⟩ := Prod.mk.inj heq
      exact ordered_ref h ho hrun
  | store v => exact ordered_store h ho ((variableStore_eq_run h 1 ha).symm.trans hstep)
  | popBlock =>
      show cg'.Ordered (history ++ [])
      rw [List.append_nil]
      exact ordered_evicts h ho ((codegenPopBlock_eq_run h).symm.trans hstep)
  | functionCall label args =>
      obtain ⟨es, heq, -⟩ := archFunctionCall_eq_run h label (Nat.lt_succ_of_le ha.1) ha.2
      have hrun := heq.symm.trans hstep
      rw [run_append] at hrun
      obtain ⟨cg₁, hpop, hcall⟩ := Option.bind_eq_some_iff.mp hrun
      rw [run_singleton] at hcall
      obtain ⟨hen, rfl⟩ := moveStep_eq_some.mp hcall
      exact ordered_move (h.run hpop) (ordered_evicts h ho hpop) hen

theorem nextVar_step (h : cg.Inv) {op : AllocOp} (ha : cg.Allowed op)
    (hstep : cg.step op = some cg') : cg'.nextVar = cg.nextVar + newVars [op] := by
  cases op with
  | newVar =>
      have hcount := (counts_run ((codegenNewVar_eq_run h).symm.trans hstep)).2
      rwa [countP_newVarMoves] at hcount
  | ref v =>
      obtain ⟨⟨reg, cg₁⟩, hcg, rfl⟩ := Option.map_eq_some_iff.mp hstep
      rw [callDepth, variableRef_eq_run h 3 ha] at hcg
      obtain ⟨cg₂, hrun, heq⟩ := Option.map_eq_some_iff.mp hcg
      obtain ⟨-, rfl⟩ := Prod.mk.inj heq
      have hcount := (counts_run hrun).2
      rwa [countP_refMoves] at hcount
  | store v =>
      have hcount := (counts_run ((variableStore_eq_run h 1 ha).symm.trans hstep)).2
      rwa [countP_storeMoves] at hcount
  | popBlock =>
      have hcount := (counts_run ((codegenPopBlock_eq_run h).symm.trans hstep)).2
      rwa [countP_popMoves] at hcount
  | functionCall label args =>
      obtain ⟨es, heq, -⟩ := archFunctionCall_eq_run h label (Nat.lt_succ_of_le ha.1) ha.2
      have hcount := (counts_run (heq.symm.trans hstep)).2
      rwa [List.countP_append, countP_popMoves] at hcount

theorem usedVars_cons (next : ℕ) (op : AllocOp) (ops : List AllocOp) :
    usedVars next (op :: ops) = usedVars next [op] ++ usedVars (next + newVars [op]) ops := by
  cases op <;> rfl

/-- **Every run of calls keeps the invariant and the order.** -/
theorem ordered_run (h : cg.Inv) (ho : cg.Ordered history) (ops : List AllocOp)
    (hall : AllSteps Codegen.step Codegen.Allowed cg ops)
    (hrun : run Codegen.step cg ops = some cg') :
    cg'.Inv ∧ cg'.Ordered (history ++ usedVars cg.nextVar ops) := by
  induction ops generalizing cg history with
  | nil =>
      rw [run_nil, Option.some.injEq] at hrun
      subst hrun
      rw [usedVars, List.append_nil]
      exact ⟨h, ho⟩
  | cons op ops ih =>
      obtain ⟨cg₁, hstep, hrest⟩ := run_cons_eq_some.mp hrun
      obtain ⟨h', ho'⟩ := ih (h.step hall.1 hstep) (ordered_step h ho hall.1 hstep)
        (hall.2 cg₁ hstep) hrest
      rw [usedVars_cons, ← List.append_assoc, ← nextVar_step h hall.1 hstep]
      exact ⟨h', ho'⟩

theorem tables_of_inv (h : cg.Inv) (ho : cg.Ordered history) : cg.Tables history where
  status := fun r hr v hv => (h.status r v).trans ⟨fun hs => hs.2.2, fun hs => ⟨hv, hr, hs⟩⟩
  known := fun r v hstat => ⟨((h.status r v).mp hstat).2.1, ((h.status r v).mp hstat).1⟩
  reg := h.reg
  apart := by
    intro v hv w hw hr heq
    obtain ⟨r, -, hreg, hstat⟩ := h.resident hv hr
    obtain ⟨r', -, hreg', hstat'⟩ := h.resident hw (heq ▸ hr)
    have hrr : r = r' := by omega
    rw [hrr, hstat', Option.some.injEq] at hstat
    exact hstat.symm
  lru_mem := h.lru_mem
  lru_nodup := h.lru_nodup
  lru_order := by
    rw [ho]
    apply byLastUse_pairwise
  slot := h.slot
  slot_apart := by
    intro v hv w hw hne heq
    exact h.slot_inj v hv w hw ((h.slot v hv).resolve_left hne).1 heq

/-- The variable evicted is the one used least recently. -/
theorem victim_first (h : cg.Inv) (ho : cg.Ordered history) {w : ℕ} (hw : w < cg.nextVar)
    (hne : w ≠ cg.victim) (hr : 0 ≤ (cg.vars w).reg) : UsedBefore history cg.victim w := by
  have hmem : w ∈ cg.lruVariables := (h.lru_mem w).mpr ⟨hw, hr⟩
  have hpair : cg.lruVariables.Pairwise (UsedBefore history) := by
    rw [ho]
    apply byLastUse_pairwise
  unfold Codegen.victim at hne ⊢
  rcases hlru : cg.lruVariables with _ | ⟨u, rest⟩
  · rw [hlru] at hmem
    cases hmem
  · rw [hlru] at hmem hpair hne
    exact (List.pairwise_cons.mp hpair).1 w ((List.mem_cons.mp hmem).resolve_left hne)

theorem allocatesLru_of_inv (h : cg.Inv) (ho : cg.Ordered history) :
    cg.AllocatesLru history := by
  intro r cg' halloc
  rw [callDepth, codegenAllocateReg_eq_run h] at halloc
  obtain ⟨cg₁, hrun, heq⟩ := Option.map_eq_some_iff.mp halloc
  obtain ⟨rfl, rfl⟩ := Prod.mk.inj heq
  obtain ⟨hlt, hfree, -⟩ := alloc_spec h hrun
  have hcount := (counts_run hrun).1
  refine ⟨⟨Int.natCast_nonneg _, by omega, hfree⟩, ?_, ?_⟩
  · rintro ⟨i, hi, hnone⟩
    unfold Codegen.allocMoves at hrun
    rcases hfind : cg.freeReg with _ | j
    · have hbusy := List.find?_eq_none.mp hfind i (List.mem_range.mpr hi)
      exact absurd (Option.isNone_iff_eq_none.mpr hnone) hbusy
    · rw [hfind, run_nil, Option.some.injEq] at hrun
      exact hrun.symm
  · intro hfull
    have hfind : cg.freeReg = none := by
      apply List.find?_eq_none.mpr
      intro i hi hnone
      exact hfull i (List.mem_range.mp hi) (Option.isNone_iff_eq_none.mp hnone)
    unfold Codegen.allocMoves at hrun
    rw [hfind, run_singleton] at hrun
    obtain ⟨⟨hv, hr, -⟩, rfl⟩ := moveStep_eq_some.mp hrun
    have hreg : cg.allocReg = (cg.vars cg.victim).reg.toNat := by
      unfold Codegen.allocReg
      rw [hfind]
    have hself : (cg.move (.evict cg.victim)).vars cg.victim = ⟨-1, cg.slotOf cg.victim⟩ :=
      Function.update_self ..
    refine ⟨cg.victim, hv, by omega, congrArg Variable.reg hself, ?_, ?_⟩
    · intro w hw
      exact Function.update_of_ne hw ..
    · intro w hw hne hres
      exact victim_first h ho hw hne hres

/-- A state whose list is empty has no variable in a register. -/
theorem registersEmpty_of_lru (h : cg.Inv) (hempty : cg.lruVariables = []) :
    cg.RegistersEmpty := by
  have hout : ∀ v < cg.nextVar, ¬ 0 ≤ (cg.vars v).reg := by
    intro v hv hr
    have hmem := (h.lru_mem v).mpr ⟨hv, hr⟩
    rw [hempty] at hmem
    cases hmem
  constructor
  · intro r
    rcases hstat : cg.registerStatus r with _ | v
    · rfl
    · obtain ⟨hv, -, hreg⟩ := (h.status r v).mp hstat
      exact absurd (by omega) (hout v hv)
  · intro v hv
    rcases h.reg v hv with hr | ⟨r, -, hr⟩
    · exact hr
    · exact absurd (by omega) (hout v hv)

theorem popBlock_empties (h : cg.Inv) (hpop : codegenPopBlock cg = some cg') :
    cg'.RegistersEmpty := by
  have hrun := (codegenPopBlock_eq_run h).symm.trans hpop
  exact registersEmpty_of_lru (h.run hrun) (pop_spec h hrun)

theorem functionCall_empties (h : cg.Inv) (label : Label) {args : List ℕ}
    (hlen : args.length ≤ 6) (hargs : ∀ v ∈ args, v < cg.nextVar) {r : Codegen × Label}
    (hcall : archFunctionCall cg label args = some r) : r.1.RegistersEmpty := by
  obtain ⟨es, heq, -⟩ := archFunctionCall_eq_run h label (Nat.lt_succ_of_le hlen) hargs
  rw [hcall, run_append] at heq
  obtain ⟨cg₁, hpop, hlast⟩ := Option.bind_eq_some_iff.mp heq.symm
  rw [run_singleton] at hlast
  have h' := (h.run hpop).moveStep hlast
  obtain ⟨-, hmove⟩ := moveStep_eq_some.mp hlast
  apply registersEmpty_of_lru h'
  rw [← hmove]
  show cg₁.lruVariables = []
  exact pop_spec h hpop

end Tables

/-! ## Runs from `codegen_initFunction` -/

/-- `codegen_initFunction` uses the arguments in order. -/
theorem initFunction_lru (registerCount : ℕ) {argCount : ℕ} (hargs : argCount ≤ 6) :
    (codegenInitFunction (codegenInit registerCount) argCount).lruVariables =
      List.range argCount ∧
    (codegenInitFunction (codegenInit registerCount) argCount).nextVar = argCount := by
  induction argCount with
  | zero => exact ⟨rfl, rfl⟩
  | succ n ih =>
      obtain ⟨hlru, hnext⟩ := ih (by omega)
      have hstep := codegenInitFunction_succ (codegenInit registerCount) (show n < 6 by omega)
      rw [hstep]
      constructor
      · show _ ++ [_] = _
        rw [List.range_succ]
        exact congrArg₂ (· ++ [·]) hlru hnext
      · exact congrArg (· + 1) hnext

theorem initFunction_ordered {registerCount : ℕ} (h10 : registerCount ≤ 10) {argCount : ℕ}
    (hargs : argCount = 0 ∨ 7 ≤ registerCount ∧ argCount ≤ 6) :
    (codegenInitFunction (codegenInit registerCount) argCount).Ordered
      (List.range argCount) := by
  obtain ⟨hinv, -, hnext, -⟩ := initFunction_spec h10 hargs
  obtain ⟨hlru, -⟩ := initFunction_lru registerCount (show argCount ≤ 6 by omega)
  have hres : ∀ v ∈ List.range argCount,
      (codegenInitFunction (codegenInit registerCount) argCount).resident v = true := by
    intro v hv
    rw [← hlru] at hv
    exact decide_eq_true ((hinv.lru_mem v).mp hv).2
  unfold Codegen.Ordered byLastUse
  rw [hlru, List.nodup_range.dedup, List.filter_eq_self.mpr hres]
