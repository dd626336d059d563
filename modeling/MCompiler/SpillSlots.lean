/-
# Stack slots and the displacement byte

`arch_store` and `arch_loadReg` address the slot of a variable by a displacement of
`-8 * stackPos` from `RBP`, which the encoder squeezes into one byte; the CPU reads
that byte with its sign.

The bytes emitted address the slots they are meant for exactly when no more than sixteen
slots are given out (`slotsExact_iff`, `step_slotsExact_iff`); the seventeenth slot is
addressed above `RBP` (`slots_not_exact`).
-/
import Mathlib.Data.Int.Interval
import MCompiler.CodegenHomes

open Runs

/-! ## Displacements -/

/-- A displacement byte as the CPU reads it. -/
def signExtend (b : UInt8) : ℤ := (b.toNat : ℤ).bmod 256

/-- The displacement an encoder call for a memory access is given. -/
def Emit.disp : Emit → Option ℤ
  | .loadRegRBP64 _ disp => some disp
  | .storeRegRBP64 _ disp => some disp
  | _ => none

/-- The displacement in the bytes of a memory access: the last one, with its sign. -/
def Emit.cpuDisp (e : Emit) : ℤ := signExtend (e.bytes.getLastD 0)

/-- The address, relative to `RBP`, that the byte emitted for the slot of a variable
stands for. -/
def slotAddress (cg : Codegen) (var : ℕ) : ℤ := signExtend (toChar (-(cg.vars var).stackPos * 8))

/-- Every memory access emitted addresses the slot of a variable, inside the frame, and
no two variables with slots share an address. -/
structure SlotsExact (cg : Codegen) : Prop where
  emitted : ∀ e ∈ cg.code, ∀ disp, e.disp = some disp →
    e.cpuDisp = disp ∧ ∃ v < cg.nextVar, 0 < (cg.vars v).stackPos ∧
      disp = -8 * (cg.vars v).stackPos ∧ -8 * cg.frameSize ≤ e.cpuDisp ∧ e.cpuDisp ≤ -8
  apart : ∀ v < cg.nextVar, ∀ w < cg.nextVar, v ≠ w →
    0 < (cg.vars v).stackPos → 0 < (cg.vars w).stackPos → slotAddress cg v ≠ slotAddress cg w

/-- A displacement of one byte survives the encoding. -/
theorem signExtend_toChar {n : ℤ} (h1 : -128 ≤ n) (h2 : n < 128) : signExtend (toChar n) = n := by
  have hnat : (toChar n).toNat = (n % 256).toNat := by
    unfold toChar
    rw [UInt8.toNat_ofNat']
    omega
  unfold signExtend
  rw [hnat, Int.bmod_def]
  split_ifs <;> omega

/-- No byte stands for a larger displacement. -/
theorem signExtend_bounds (b : UInt8) : -128 ≤ signExtend b ∧ signExtend b < 128 := by
  unfold signExtend
  rw [Int.bmod_def]
  split_ifs <;> omega

theorem Emit.cpuDisp_eq {e : Emit} {disp : ℤ} (h : e.disp = some disp) :
    e.cpuDisp = signExtend (toChar disp) := by
  cases e with
  | loadRegRBP64 reg d =>
      cases h
      show signExtend ((_ ++ [toChar disp]).getLastD 0) = _
      rw [List.getLastD_concat]
  | storeRegRBP64 reg d =>
      cases h
      show signExtend ((_ ++ [toChar disp]).getLastD 0) = _
      rw [List.getLastD_concat]
  | storeReg64 => cases h
  | call => cases h

/-! ## The code of a run -/

/-- The memory accesses emitted are those of the slots given out, and every slot given
out has been accessed. -/
structure SlotCode (cg : Codegen) : Prop where
  sound : ∀ e ∈ cg.code, ∀ disp, e.disp = some disp →
    ∃ v < cg.nextVar, 0 < (cg.vars v).stackPos ∧ disp = -(cg.vars v).stackPos * 8
  complete : ∀ v < cg.nextVar, 0 < (cg.vars v).stackPos →
    ∃ e ∈ cg.code, e.disp = some (-(cg.vars v).stackPos * 8)

section SlotCode

variable {cg : Codegen}

/-- A move keeps the slots that have been given out. -/
theorem stackPos_move {m : Move} (hm : cg.Enabled m) {v : ℕ} (hv : v < cg.nextVar)
    (hpos : 0 < (cg.vars v).stackPos) :
    v < (cg.move m).nextVar ∧ ((cg.move m).vars v).stackPos = (cg.vars v).stackPos := by
  cases m with
  | bump u => exact ⟨hv, rfl⟩
  | evict u =>
      refine ⟨hv, ?_⟩
      show (Function.update cg.vars u _ v).stackPos = _
      by_cases hvu : v = u
      · subst hvu
        rw [Function.update_self]
        exact if_neg (by omega)
      · rw [Function.update_of_ne hvu]
  | reload u r =>
      refine ⟨hv, ?_⟩
      show (Function.update cg.vars u _ v).stackPos = _
      by_cases hvu : v = u
      · subst hvu
        rw [Function.update_self]
      · rw [Function.update_of_ne hvu]
  | create r =>
      refine ⟨Nat.lt_succ_of_lt hv, ?_⟩
      show (Function.update cg.vars cg.nextVar _ v).stackPos = _
      rw [Function.update_of_ne (by omega)]
  | call es => exact ⟨hv, rfl⟩

/-- The memory accesses a move emits go to slots of variables. -/
theorem emitted_sound (h : cg.Inv) {m : Move} (hm : cg.Enabled m) {e : Emit}
    (he : e ∈ cg.emitted m) {disp : ℤ} (hdisp : e.disp = some disp) :
    ∃ v < (cg.move m).nextVar, 0 < ((cg.move m).vars v).stackPos ∧
      disp = -((cg.move m).vars v).stackPos * 8 := by
  cases m with
  | bump u => cases he
  | create r => cases he
  | evict u =>
      obtain ⟨hu, -, -⟩ := hm
      rw [List.mem_singleton.mp he] at hdisp
      cases hdisp
      have hself : (cg.move (.evict u)).vars u = ⟨-1, cg.slotOf u⟩ := Function.update_self ..
      exact ⟨u, hu, by rw [hself]; exact h.slotOf_pos hu, by rw [hself]⟩
  | reload u r =>
      obtain ⟨hu, hout, -, -⟩ := hm
      rw [List.mem_singleton.mp he] at hdisp
      cases hdisp
      have hself : (cg.move (.reload u r)).vars u = ⟨r, (cg.vars u).stackPos⟩ :=
        Function.update_self ..
      exact ⟨u, hu, by rw [hself]; exact h.home u hu hout, by rw [hself]⟩
  | call es =>
      rcases List.mem_append.mp he with he | he
      · have hpass := hm.2 e he
        cases e with
        | loadRegRBP64 reg d =>
            cases hdisp
            obtain ⟨v, hv, hpos, rfl⟩ := hpass
            exact ⟨v, hv, hpos, rfl⟩
        | storeRegRBP64 => cases hpass
        | storeReg64 => cases hdisp
        | call => cases hdisp
      · rw [List.mem_singleton.mp he] at hdisp
        cases hdisp

/-- Every move keeps `SlotCode`: a slot is given out together with the store into it. -/
theorem SlotCode.move (hc : SlotCode cg) (h : cg.Inv) {m : Move} (hm : cg.Enabled m) :
    SlotCode (cg.move m) := by
  constructor
  · intro e he disp hdisp
    rw [code_move] at he
    rcases List.mem_append.mp he with he | he
    · obtain ⟨v, hv, hpos, rfl⟩ := hc.sound e he disp hdisp
      obtain ⟨hv', hslot⟩ := stackPos_move hm hv hpos
      exact ⟨v, hv', by omega, by rw [hslot]⟩
    · exact emitted_sound h hm he hdisp
  · intro v hv hpos
    rw [code_move]
    by_cases hold : v < cg.nextVar ∧ 0 < (cg.vars v).stackPos
    · obtain ⟨hv', hslot⟩ := stackPos_move hm hold.1 hold.2
      obtain ⟨e, he, hdisp⟩ := hc.complete v hold.1 hold.2
      exact ⟨e, List.mem_append_left _ he, by rw [hslot]; exact hdisp⟩
    -- only an eviction gives out a new slot
    · cases m with
      | bump u => exact absurd ⟨hv, hpos⟩ hold
      | call es => exact absurd ⟨hv, hpos⟩ hold
      | evict u =>
          by_cases hvu : v = u
          · subst hvu
            have hself : (cg.move (.evict v)).vars v = ⟨-1, cg.slotOf v⟩ :=
              Function.update_self ..
            rw [hself]
            exact ⟨_, List.mem_append_right _ (List.mem_singleton.mpr rfl), rfl⟩
          · have hother : (cg.move (.evict u)).vars v = cg.vars v := Function.update_of_ne hvu ..
            rw [hother] at hpos
            exact absurd ⟨hv, hpos⟩ hold
      | reload u r =>
          have hsame : ((cg.move (.reload u r)).vars v).stackPos = (cg.vars v).stackPos := by
            show (Function.update cg.vars u _ v).stackPos = _
            by_cases hvu : v = u
            · subst hvu
              rw [Function.update_self]
            · rw [Function.update_of_ne hvu]
          exact absurd ⟨hv, hsame ▸ hpos⟩ hold
      | create r =>
          by_cases hvn : v = cg.nextVar
          · have hself : (cg.move (.create r)).vars cg.nextVar = ⟨r, -1⟩ := Function.update_self ..
            rw [hvn, hself] at hpos
            simp only at hpos
            omega
          · have hother : (cg.move (.create r)).vars v = cg.vars v := Function.update_of_ne hvn ..
            have hlt : v < cg.nextVar + 1 := hv
            rw [hother] at hpos
            exact absurd ⟨by omega, hpos⟩ hold

theorem SlotCode.run (hc : SlotCode cg) (h : cg.Inv) {ms : List Move} {cg' : Codegen}
    (hrun : run Codegen.moveStep cg ms = some cg') : SlotCode cg' := by
  have hboth : cg'.Inv ∧ SlotCode cg' := by
    refine run_invariant (I := fun cg => cg.Inv ∧ SlotCode cg) (fun s m s' hs hm => ?_) ⟨h, hc⟩ hrun
    have hinv := hs.1.moveStep hm
    obtain ⟨hen, rfl⟩ := moveStep_eq_some.mp hm
    exact ⟨hinv, hs.2.move hs.1 hen⟩
  exact hboth.2

/-- **The displacement bytes are exact as long as sixteen slots are enough.** -/
theorem slotsExact_iff (h : cg.Inv) (hc : SlotCode cg) : SlotsExact cg ↔ cg.frameSize ≤ 16 := by
  constructor
  · intro hexact
    by_contra hbig
    -- the variable in slot 17 has been stored, at displacement -136
    obtain ⟨v, hv, hslot⟩ := h.slot_onto 17 (by omega) (by omega)
    obtain ⟨e, he, hdisp⟩ := hc.complete v hv (by omega)
    have heq := (hexact.emitted e he _ hdisp).1
    rw [Emit.cpuDisp_eq hdisp] at heq
    have hbounds := signExtend_bounds (toChar (-(cg.vars v).stackPos * 8))
    omega
  · intro hsmall
    have hle : ∀ v < cg.nextVar, (cg.vars v).stackPos ≤ 16 := fun v hv => by
      rcases h.slot v hv with h1 | h1 <;> omega
    have hexact : ∀ v < cg.nextVar, 0 < (cg.vars v).stackPos →
        signExtend (toChar (-(cg.vars v).stackPos * 8)) = -(cg.vars v).stackPos * 8 := by
      intro v hv hpos
      have := hle v hv
      exact signExtend_toChar (by omega) (by omega)
    constructor
    · intro e he disp hdisp
      obtain ⟨v, hv, hpos, rfl⟩ := hc.sound e he disp hdisp
      have heq := hexact v hv hpos
      rw [← Emit.cpuDisp_eq hdisp] at heq
      refine ⟨heq, v, hv, hpos, by omega, ?_, by omega⟩
      rcases h.slot v hv with h1 | h1 <;> omega
    · intro v hv w hw hne hvpos hwpos heq
      unfold slotAddress at heq
      rw [hexact v hv hvpos, hexact w hw hwpos] at heq
      exact hne (h.slot_inj v hv w hw hvpos (by omega))

end SlotCode

/-! ## The slots an action gives out -/

/-- The variables `codegen_allocateReg` stores. -/
def Codegen.allocStores (cg : Codegen) : List ℕ :=
  match cg.freeReg with
  | some _ => []
  | none => [cg.victim]

/-- The variables an action stores, in this order. -/
def stores (cg : Codegen) : SessionOp → List ℕ
  | .newVar => cg.allocStores
  | .ref v => if (cg.vars v).reg ≥ 0 then [] else cg.allocStores
  | .write _ => []
  | .store v => if (cg.vars v).reg ≥ 0 then [v] else cg.allocStores ++ [v]
  | .popBlock => cg.held (List.range cg.registerCount)
  | .functionCall _ _ _ => cg.held (List.range cg.registerCount)

/-- How many of them have no slot yet. -/
def newSlots (cg : Codegen) (op : SessionOp) : ℕ :=
  (stores cg op).countP (fun v => (cg.vars v).stackPos < 0)

/-- The variables a move stores. -/
def Move.stores : Move → List ℕ
  | .evict v => [v]
  | _ => []

section NewSlots

variable {cg : Codegen}

/-- **The frame grows by the slots given out.** -/
theorem frameSize_run (ms : List Move) (hnodup : (ms.flatMap Move.stores).Nodup)
    (hvars : ∀ v ∈ ms.flatMap Move.stores, v < cg.nextVar) {cg' : Codegen}
    (hrun : run Codegen.moveStep cg ms = some cg') :
    cg'.frameSize = cg.frameSize +
      (ms.flatMap Move.stores).countP (fun v => (cg.vars v).stackPos < 0) := by
  induction ms generalizing cg with
  | nil =>
      rw [run_nil, Option.some.injEq] at hrun
      rw [hrun]
      rfl
  | cons m ms ih =>
      obtain ⟨cg₁, hm, hrest⟩ := run_cons_eq_some.mp hrun
      rw [List.flatMap_cons] at hnodup hvars ⊢
      obtain ⟨-, hnodup', hdisj⟩ := List.nodup_append.mp hnodup
      have hlt : ∀ v ∈ ms.flatMap Move.stores, v < cg.nextVar := fun v hv =>
        hvars v (List.mem_append_right _ hv)
      obtain ⟨-, rfl⟩ := moveStep_eq_some.mp hm
      have hframe : (cg.move m).frameSize = cg.frameSize +
          m.stores.countP (fun v => (cg.vars v).stackPos < 0) := by
        cases m with
        | evict u =>
            show cg.frameWith u = _
            unfold Codegen.frameWith Move.stores
            by_cases hneg : (cg.vars u).stackPos < 0 <;> simp [hneg]
        | _ => rfl
      -- a variable stored later is not touched by this move's store
      have hsame : ∀ v ∈ ms.flatMap Move.stores,
          ((cg.move m).vars v).stackPos = (cg.vars v).stackPos := by
        intro v hv
        cases m with
        | evict u =>
            have hvu : v ≠ u := fun heq =>
              hdisj u (List.mem_singleton.mpr rfl) v hv heq.symm
            exact congrArg Variable.stackPos (Function.update_of_ne hvu ..)
        | reload u r =>
            show (Function.update cg.vars u _ v).stackPos = _
            by_cases hvu : v = u
            · subst hvu
              rw [Function.update_self]
            · rw [Function.update_of_ne hvu]
        | create r =>
            have hvn : v ≠ cg.nextVar := Nat.ne_of_lt (hlt v hv)
            exact congrArg Variable.stackPos (Function.update_of_ne hvn ..)
        | bump u => rfl
        | call es => rfl
      have hle : cg.nextVar ≤ (cg.move m).nextVar := by
        cases m <;> first | exact Nat.le_refl _ | exact Nat.le_succ _
      rw [ih hnodup' (fun v hv => Nat.lt_of_lt_of_le (hlt v hv) hle) hrest, hframe,
        List.countP_append, Nat.add_assoc]
      congr 2
      apply List.countP_congr
      intro v hv
      rw [hsame v hv]

/-- The moves of an action are those of the variables it stores. -/
theorem stores_allocMoves (cg : Codegen) : cg.allocMoves.flatMap Move.stores = cg.allocStores := by
  unfold Codegen.allocMoves Codegen.allocStores
  cases cg.freeReg <;> rfl

theorem stores_evicts (vs : List ℕ) : (vs.map Move.evict).flatMap Move.stores = vs := by
  induction vs with
  | nil => rfl
  | cons v vs ih =>
      rw [List.map_cons, List.flatMap_cons, ih]
      rfl

/-- What an action does to the allocator is a sequence of moves that store the
variables the action stores. -/
theorem step_moves {s s' : Session} (h : s.Good) {op : SessionOp} (ha : s.Allowed op)
    (hstep : s.step op = some s') : ∃ ms, run Codegen.moveStep s.cg ms = some s'.cg ∧
      ms.flatMap Move.stores = stores s.cg op := by
  cases op with
  | newVar =>
      obtain ⟨cg, hcg, rfl⟩ := Option.map_eq_some_iff.mp hstep
      refine ⟨_, (codegenNewVar_eq_run h.inv).symm.trans hcg, ?_⟩
      rw [Codegen.newVarMoves, List.flatMap_append, stores_allocMoves]
      exact List.append_nil _
  | ref v =>
      obtain ⟨⟨reg, cg⟩, hcg, rfl⟩ := Option.map_eq_some_iff.mp hstep
      rw [callDepth, variableRef_eq_run h.inv 3 ha] at hcg
      obtain ⟨cg, hrun, heq⟩ := Option.map_eq_some_iff.mp hcg
      obtain ⟨rfl, rfl⟩ := Prod.mk.inj heq
      refine ⟨_, hrun, ?_⟩
      rw [Codegen.refMoves, stores]
      split_ifs with hr
      · rfl
      · rw [List.flatMap_append, stores_allocMoves]
        exact List.append_nil _
  | write value =>
      obtain ⟨⟨v, reg⟩, hgrant, rfl⟩ := Option.map_eq_some_iff.mp hstep
      exact ⟨[], rfl, rfl⟩
  | store v =>
      obtain ⟨cg, hcg, rfl⟩ := Option.map_eq_some_iff.mp hstep
      refine ⟨_, (variableStore_eq_run h.inv 1 ha).symm.trans hcg, ?_⟩
      rw [Codegen.storeMoves, stores]
      split_ifs with hr
      · rfl
      · rw [List.flatMap_append, stores_allocMoves]
        rfl
  | popBlock =>
      obtain ⟨cg, hcg, rfl⟩ := Option.map_eq_some_iff.mp hstep
      exact ⟨_, (codegenPopBlock_eq_run h.inv).symm.trans hcg, stores_evicts _⟩
  | functionCall label args clobber =>
      obtain ⟨r, hr, rfl⟩ := Option.map_eq_some_iff.mp hstep
      obtain ⟨es, heq, -⟩ :=
        archFunctionCall_eq_run h.inv label (Nat.lt_succ_of_le ha.1) ha.2
      rw [hr] at heq
      refine ⟨_, heq.symm, ?_⟩
      rw [List.flatMap_append, Codegen.popMoves, stores_evicts]
      exact List.append_nil _

theorem allocStores_spec (h : cg.Inv) (hpos : 0 < cg.registerCount) :
    cg.allocStores.Nodup ∧ ∀ v ∈ cg.allocStores, v < cg.nextVar ∧ 0 ≤ (cg.vars v).reg := by
  unfold Codegen.allocStores
  rcases hfind : cg.freeReg with _ | i
  · refine ⟨by simp, fun v hv => ?_⟩
    rw [List.mem_singleton.mp hv]
    exact victim_resident h hpos hfind
  · exact ⟨List.nodup_nil, fun v hv => by cases hv⟩

theorem held_spec (h : cg.Inv) : (cg.held (List.range cg.registerCount)).Nodup ∧
    ∀ v ∈ cg.held (List.range cg.registerCount), v < cg.nextVar := by
  constructor
  · refine List.Nodup.filterMap (fun i j v hi hj => ?_) List.nodup_range
    have h1 := ((h.status i v).mp hi).2.2
    have h2 := ((h.status j v).mp hj).2.2
    omega
  · intro v hv
    obtain ⟨i, -, hi⟩ := List.mem_filterMap.mp hv
    exact ((h.status i v).mp hi).1

/-- The variables an action stores are distinct and exist. -/
theorem stores_spec {s : Session} (h : s.Good) (hpos : 0 < s.cg.registerCount) {op : SessionOp}
    (ha : s.Allowed op) : (stores s.cg op).Nodup ∧ ∀ v ∈ stores s.cg op, v < s.cg.nextVar := by
  obtain ⟨halloc, hmem⟩ := allocStores_spec h.inv hpos
  cases op with
  | newVar => exact ⟨halloc, fun v hv => (hmem v hv).1⟩
  | ref v =>
      rw [stores]
      split_ifs
      · exact ⟨List.nodup_nil, fun v hv => by cases hv⟩
      · exact ⟨halloc, fun v hv => (hmem v hv).1⟩
  | write value => exact ⟨List.nodup_nil, fun v hv => by cases hv⟩
  | store v =>
      have hv : v < s.cg.nextVar := ha
      rw [stores]
      split_ifs with hr
      · exact ⟨by simp, fun u hu => List.mem_singleton.mp hu ▸ hv⟩
      · have hnotin : v ∉ s.cg.allocStores := fun hin => hr (hmem v hin).2
        refine ⟨List.Nodup.append halloc (by simp) (by simpa using hnotin), fun u hu => ?_⟩
        rcases List.mem_append.mp hu with hu | hu
        · exact (hmem u hu).1
        · exact List.mem_singleton.mp hu ▸ hv
  | popBlock => exact held_spec h.inv
  | functionCall => exact held_spec h.inv

/-- A variable is in a register or has a slot. -/
theorem nextVar_le (h : cg.Inv) : cg.nextVar ≤ cg.frameSize + cg.registerCount := by
  -- slots are numbered from 0 to `frameSize`, registers after them
  let place : ℕ → ℤ := fun v =>
    if (cg.vars v).reg = -1 then (cg.vars v).stackPos else cg.frameSize + 1 + (cg.vars v).reg
  have hcard : (Finset.range cg.nextVar).card ≤
      (Finset.Icc (1 : ℤ) (cg.frameSize + cg.registerCount)).card := by
    apply Finset.card_le_card_of_injOn place
    · intro v hv
      have hv : v < cg.nextVar := Finset.mem_range.mp hv
      rw [Finset.mem_coe, Finset.mem_Icc]
      show 1 ≤ place v ∧ place v ≤ _
      unfold place
      have hslot := h.slot v hv
      have hhome := h.home v hv
      have hreg := h.reg v hv
      split_ifs with hr
      · have := hhome hr
        omega
      · obtain ⟨r, hlt, hreg⟩ := hreg.resolve_left hr
        omega
    · intro v hv w hw heq
      have hv : v < cg.nextVar := Finset.mem_range.mp hv
      have hw : w < cg.nextVar := Finset.mem_range.mp hw
      unfold place at heq
      have hvs := h.slot v hv
      have hws := h.slot w hw
      split_ifs at heq with h1 h2 h2
      · exact h.slot_inj v hv w hw (h.home v hv h1) heq
      · obtain ⟨r, hlt, hreg⟩ := (h.reg w hw).resolve_left h2
        omega
      · obtain ⟨r, hlt, hreg⟩ := (h.reg v hv).resolve_left h1
        omega
      · obtain ⟨r, hlt, hreg⟩ := (h.reg v hv).resolve_left h1
        have hstat := (h.status r v).mpr ⟨hv, hlt, hreg⟩
        rw [(h.status r w).mpr ⟨hw, hlt, by omega⟩, Option.some.injEq] at hstat
        exact hstat.symm
  rw [Finset.card_range, Int.card_Icc] at hcard
  omega

end NewSlots

/-! ## Runs -/

/-- **One action gives exact displacements if and only if sixteen slots are enough for
it.** -/
theorem step_slotsExact_iff {s : Session} (h : s.Good) (hc : SlotCode s.cg)
    (hpos : 0 < s.cg.registerCount) (hframe : s.cg.frameSize ≤ 16) {op : SessionOp}
    (ha : s.Allowed op) :
    (∀ s', s.step op = some s' → SlotsExact s'.cg) ↔ s.cg.frameSize + newSlots s.cg op ≤ 16 := by
  have hle := nextVar_le h.inv
  have hcount := h.inv.count_le
  have hlt : s.cg.nextVar < 2 ^ 31 := by omega
  obtain ⟨s', hstep, -⟩ := h.step_total hpos hlt ha
  obtain ⟨ms, hrun, hms⟩ := step_moves h ha hstep
  obtain ⟨hnodup, hvars⟩ := stores_spec h hpos ha
  have hgrow := frameSize_run ms (hms ▸ hnodup) (hms ▸ hvars) hrun
  rw [hms] at hgrow
  have hexact := slotsExact_iff (h.inv.run hrun) (hc.run h.inv hrun)
  rw [hgrow] at hexact
  constructor
  · intro hall
    exact hexact.mp (hall s' hstep)
  · intro hsmall t ht
    rw [hstep, Option.some.injEq] at ht
    exact ht ▸ hexact.mpr hsmall

/-- The calls of the allocator's own interface. -/
def SessionOp.isAllocator : SessionOp → Bool
  | .newVar | .ref _ | .store _ | .popBlock => true
  | .write _ | .functionCall _ _ _ => false

/-- **The seventeenth slot.**  Seventeen variables stored at the end of a block get the
displacements `-8, …, -136`, and the byte of the last one reads as `120`. -/
theorem slots_not_exact :
    ¬ ∀ registerCount, 1 ≤ registerCount → registerCount ≤ 10 → ∀ (machine : Machine)
      (ops : List SessionOp), (∀ op ∈ ops, op.isAllocator) →
      AllSteps Session.step Session.Allowed (Session.start registerCount 0 machine) ops →
      AllSteps Session.step (fun s op => ∀ s', s.step op = some s' → SlotsExact s'.cg)
        (Session.start registerCount 0 machine) ops := by
  intro hclaim
  let start := Session.start 10 0 ⟨fun _ => 0, fun _ => 0⟩
  let ops : List SessionOp := List.replicate 17 .newVar ++ [.popBlock]
  have hexact := hclaim 10 (by decide) (by decide) ⟨fun _ => 0, fun _ => 0⟩ ops (by decide)
    (by decide +kernel)
  have hbad : (run Session.step start ops).any (fun s => s.cg.code.any
      (fun e => e.disp == some (-136) && e.cpuDisp != -136)) := by decide +kernel
  obtain ⟨s, hrun, hcode⟩ := (Option.any_eq_true _ _).mp hbad
  have hstart : SlotsExact start.cg :=
    ⟨fun e he => (by cases he), fun v hv => absurd hv (Nat.not_lt_zero v)⟩
  have hlast : SlotsExact s.cg := run_invariant_of_allSteps (I := fun s => SlotsExact s.cg)
    (fun _ _ s' _ hP hstep => hP s' hstep) hstart hexact hrun
  obtain ⟨e, he, hboth⟩ := List.any_eq_true.mp hcode
  rw [Bool.and_eq_true, beq_iff_eq, bne_iff_ne] at hboth
  exact hboth.2 (hlast.emitted e he _ hboth.1).1
