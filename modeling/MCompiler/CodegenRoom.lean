/-
# The buffer of the code

`codegen_init` makes `cg->buffer` by `dbuffer_init`: it holds 2000 bytes, and what is pushed
after them is stored past the end of the block.  A client pushes code of its own between that of
the allocator; `codeBytes` says how much the allocator emits at an action, by the state it is
made in.

* `variables_have_homes_iff` : every variable has one home and all the code is stored;
* `slots_exact_iff` : the displacements are exact and all the code is stored;
* `registerTables_hold_iff` : the register tables agree and all the code is stored;
* `functionCall_passes_iff` : a call passes its arguments and all the code is stored;

each exactly as long as the code fits.
-/
import MCompiler.BufferRoom
import MCompiler.CodegenCalls
import MCompiler.SpillSlots

open Runs

/-! ## The code in its buffer -/

/-- The data of the pushes of an encoder call: single bytes, and the field of a call at once. -/
def Emit.pushes : Emit → List (List UInt8)
  | .call => [[0xE8], List.replicate 4 0]
  | e => e.bytes.map ([·])

/-- The code emitted since `cg`. -/
def Codegen.codeSince (cg' cg : Codegen) : List Emit := cg'.code.drop cg.code.length

/-- A state of the allocator or its client, and the data pushed to `cg->buffer` so far. -/
structure Buffered (S : Type) where
  state : S
  pushes : List (List UInt8)

/-- What a client does: it calls the allocator, or emits code of its own, byte after byte. -/
inductive ClientOp (A : Type) where
  | act (a : A)
  | emit (bytes : List UInt8)

/-- The calls of the allocator. -/
def ClientOp.calls {A : Type} (ops : List (ClientOp A)) : List A :=
  ops.filterMap fun op =>
    match op with
    | .act a => some a
    | .emit _ => none

namespace Buffered

variable {S A : Type}

/-- The bytes in the buffer. -/
def usage (b : Buffered S) : ℕ := (b.pushes.map List.length).sum

/-- All the code is stored inside the block of `cg->buffer`. -/
def Stored (b : Buffered S) : Prop := PushesStored 1000 b.pushes

/-- The allocator gets to `s` and pushes code. -/
def pushCode (b : Buffered S) (s : S) (code : List Emit) : Buffered S :=
  ⟨s, b.pushes ++ code.flatMap Emit.pushes⟩

/-- One step, which pushes the code that the allocator emits in it. -/
def step (cg : S → Codegen) (step : S → A → Option S) (b : Buffered S) :
    ClientOp A → Option (Buffered S)
  | .act a => (step b.state a).map fun s => b.pushCode s ((cg s).codeSince (cg b.state))
  | .emit bytes => some { b with pushes := b.pushes ++ bytes.map ([·]) }

/-- The allocator may be called; code of its own a client emits as it likes. -/
def Allowed (allowed : S → A → Prop) (b : Buffered S) : ClientOp A → Prop
  | .act a => allowed b.state a
  | .emit _ => True

instance (allowed : S → A → Prop) [∀ s a, Decidable (allowed s a)] (b : Buffered S)
    (op : ClientOp A) : Decidable (b.Allowed allowed op) := by
  cases op <;> unfold Allowed <;> infer_instance

/-- The bytes of code of a step, of which the allocator emits `codeBytes` for its calls. -/
def emitted (codeBytes : S → A → ℕ) (b : Buffered S) : ClientOp A → ℕ
  | .act a => codeBytes b.state a
  | .emit bytes => bytes.length

/-- The code of the step fits in the buffer. -/
def Fits (codeBytes : S → A → ℕ) (b : Buffered S) (op : ClientOp A) : Prop :=
  b.usage + b.emitted codeBytes op ≤ 2000

instance (codeBytes : S → A → ℕ) (b : Buffered S) (op : ClientOp A) :
    Decidable (b.Fits codeBytes op) :=
  inferInstanceAs (Decidable (_ ≤ _))

/-- Every push is short. -/
def Small (b : Buffered S) : Prop := ∀ data ∈ b.pushes, data.length ≤ 4

theorem stored_iff {b : Buffered S} (h : b.Small) : b.Stored ↔ b.usage ≤ 2000 :=
  pushesStored_iff_of_small (by decide) fun data hdata => by
    have hle := h data hdata
    omega

end Buffered

theorem Emit.flatten_pushes (e : Emit) : e.pushes.flatten = e.bytes := by
  cases e <;> rfl

theorem Emit.pushes_small (e : Emit) : ∀ data ∈ e.pushes, data.length ≤ 4 := by
  cases e with
  | call => decide
  | _ =>
      intro data hdata
      obtain ⟨b, -, rfl⟩ := List.mem_map.mp hdata
      exact Nat.le_of_ble_eq_true rfl

theorem sum_length_pushes (code : List Emit) :
    ((code.flatMap Emit.pushes).map List.length).sum = (code.flatMap Emit.bytes).length := by
  rw [← List.length_flatten]
  congr 1
  induction code with
  | nil => rfl
  | cons e code ih =>
      rw [List.flatMap_cons, List.flatMap_cons, List.flatten_append, ih, e.flatten_pushes]

namespace Buffered

variable {S : Type} {b : Buffered S}

theorem usage_pushCode (s : S) (code : List Emit) :
    (b.pushCode s code).usage = b.usage + (code.flatMap Emit.bytes).length := by
  unfold usage pushCode
  rw [List.map_append, List.sum_append, sum_length_pushes]

theorem Small.pushBytes (h : b.Small) (bytes : List UInt8) :
    Small { b with pushes := b.pushes ++ bytes.map ([·]) } := by
  intro data hdata
  rcases List.mem_append.mp hdata with hdata | hdata
  · exact h data hdata
  · obtain ⟨byte, -, rfl⟩ := List.mem_map.mp hdata
    exact Nat.le_of_ble_eq_true rfl

theorem Small.pushCode (h : b.Small) (s : S) (code : List Emit) : (b.pushCode s code).Small := by
  intro data hdata
  rcases List.mem_append.mp hdata with hdata | hdata
  · exact h data hdata
  · obtain ⟨e, -, hdata⟩ := List.mem_flatMap.mp hdata
    exact e.pushes_small data hdata

end Buffered

/-! ## How much code an action emits -/

/-- The bytes of code that an action emits: four for a store or a load, three for a copy
between registers and five for the call. -/
def codeBytes (cg : Codegen) (op : SessionOp) : ℕ :=
  4 * (stores cg op).length +
    match op with
    | .ref v | .store v => if (cg.vars v).reg ≥ 0 then 0 else 4
    | .functionCall _ args _ => 3 * args.length + args.dedup.length + 5
    | .newVar | .write _ | .popBlock => 0

/-- The bytes of code that a move emits. -/
def Move.codeBytes : Move → ℕ
  | .evict _ | .reload _ _ => 4
  | .bump _ | .create _ => 0
  | .call es => (es.flatMap Emit.bytes).length + 5

section Usage

variable {cg cg' : Codegen}

theorem usage_emit (cg : Codegen) (e : Emit) : (cg.emit e).usage = cg.usage + e.bytes.length := by
  unfold Codegen.usage Codegen.emit
  rw [List.flatMap_append, List.length_append, List.flatMap_singleton]

theorem usage_move (cg : Codegen) (m : Move) : (cg.move m).usage = cg.usage + m.codeBytes := by
  have happ : (cg.move m).usage = cg.usage + ((cg.emitted m).flatMap Emit.bytes).length := by
    unfold Codegen.usage
    rw [code_move, List.flatMap_append, List.length_append]
  rw [happ]
  cases m with
  | call es =>
      show cg.usage + ((es ++ [Emit.call]).flatMap Emit.bytes).length = _
      rw [List.flatMap_append, List.length_append]
      rfl
  | _ => rfl

theorem usage_run {ms : List Move} (hrun : run Codegen.moveStep cg ms = some cg') :
    cg'.usage = cg.usage + (ms.map Move.codeBytes).sum := by
  induction ms generalizing cg with
  | nil =>
      rw [run_nil, Option.some.injEq] at hrun
      rw [hrun]
      rfl
  | cons m ms ih =>
      obtain ⟨cg₁, hm, hrest⟩ := run_cons_eq_some.mp hrun
      obtain ⟨-, rfl⟩ := moveStep_eq_some.mp hm
      rw [ih hrest, usage_move, List.map_cons, List.sum_cons, Nat.add_assoc]

/-- A slot is given out with the store into it. -/
theorem frame_le_usage {ms : List Move} (h : 4 * cg.frameSize ≤ cg.usage)
    (hrun : run Codegen.moveStep cg ms = some cg') : 4 * cg'.frameSize ≤ cg'.usage := by
  refine run_invariant (I := fun cg => 4 * cg.frameSize ≤ cg.usage) (fun cg m cg' hs hm => ?_)
    h hrun
  obtain ⟨-, rfl⟩ := moveStep_eq_some.mp hm
  rw [usage_move]
  cases m with
  | evict v =>
      show 4 * cg.frameWith v ≤ cg.usage + 4
      unfold Codegen.frameWith
      split_ifs <;> omega
  | _ => exact Nat.le_add_right_of_le hs

theorem sum_codeBytes_evicts (vs : List ℕ) :
    ((vs.map Move.evict).map Move.codeBytes).sum = 4 * vs.length := by
  induction vs with
  | nil => rfl
  | cons v vs ih =>
      rw [List.map_cons, List.map_cons, List.sum_cons, ih, List.length_cons]
      show 4 + 4 * vs.length = _
      omega

theorem sum_codeBytes_allocMoves (cg : Codegen) :
    (cg.allocMoves.map Move.codeBytes).sum = 4 * cg.allocStores.length := by
  unfold Codegen.allocMoves Codegen.allocStores
  cases cg.freeReg <;> rfl

end Usage

/-! ## The code of a call -/

section Call

variable {cg cg' : Codegen} {args : List ℕ}

/-- The loop over the arguments loads each one the first time and copies it from then on. -/
theorem passArguments_usage (hout : ∀ v ∈ args, (cg.vars v).reg = -1) {n : ℕ} (hn : n ≤ 6)
    (hloop : (List.range n).foldlM (passArgument args) cg = some cg') :
    cg'.usage = cg.usage + 3 * min n args.length + (args.take n).dedup.length ∧
      ∀ v ∈ args, (cg'.vars v).reg = -1 ↔ v ∉ args.take n := by
  induction n generalizing cg' with
  | zero =>
      obtain rfl := Option.some.inj hloop
      rw [Nat.zero_min, List.take_zero]
      exact ⟨rfl, fun v hv => iff_of_true (hout v hv) List.not_mem_nil⟩
  | succ n ih =>
      rw [List.range_succ, List.foldlM_append] at hloop
      obtain ⟨cg₁, hloop₁, hlast⟩ := Option.bind_eq_some_iff.mp hloop
      obtain ⟨husage, hreg⟩ := ih (by omega) hloop₁
      rw [List.foldlM_cons] at hlast
      obtain ⟨cg₂, hround, hlast⟩ := Option.bind_eq_some_iff.mp hlast
      obtain rfl := Option.some.inj hlast
      unfold passArgument at hround
      rcases hget : args[n]? with _ | v
      · rw [hget] at hround
        obtain rfl := Option.some.inj hround
        have hlen : args.length ≤ n := List.getElem?_eq_none_iff.mp hget
        have htake : args.take (n + 1) = args.take n := by
          rw [List.take_of_length_le hlen, List.take_of_length_le (Nat.le_succ_of_le hlen)]
        rw [htake, show min (n + 1) args.length = min n args.length by omega]
        exact ⟨husage, hreg⟩
      · rw [hget] at hround
        have hlt : n < args.length := (List.getElem?_eq_some_iff.mp hget).1
        have hmem : v ∈ args := List.mem_of_getElem? hget
        have htake : args.take (n + 1) = args.take n ++ [v] := by
          rw [List.take_add_one, hget]
          rfl
        have hcount : (args.take n ++ [v]).dedup.length =
            (args.take n).dedup.length + if v ∈ args.take n then 0 else 1 := by
          rw [← List.card_toFinset, ← List.card_toFinset, List.toFinset_append,
            List.toFinset_cons, List.toFinset_nil, insert_empty_eq, Finset.union_comm,
            ← Finset.insert_eq]
          split_ifs with hv
          · rw [Finset.insert_eq_self.mpr (List.mem_toFinset.mpr hv), Nat.add_zero]
          · rw [Finset.card_insert_of_notMem (fun h => hv (List.mem_toFinset.mp h))]
        rw [htake, hcount, show min (n + 1) args.length = min n args.length + 1 by omega]
        dsimp only at hround
        have hreal := argRegs_lt n (by omega)
        split_ifs at hround with hfirst
        · -- the first time it is loaded, and has the register from then on
          have hnew := (hreg v hmem).mp hfirst
          unfold archLoadReg at hround
          split_ifs at hround
          obtain rfl := Option.some.inj hround
          rw [usage_emit, if_neg hnew]
          refine ⟨by show cg₁.usage + 4 = _; omega, fun w hw => ?_⟩
          show ((Function.update cg₁.vars v _) w).reg = -1 ↔ _
          by_cases hwv : w = v
          · subst hwv
            rw [Function.update_self]
            simp
          · rw [Function.update_of_ne hwv, hreg w hw]
            simp [hwv]
        · have hold : v ∈ args.take n := by
            by_contra hv
            exact hfirst ((hreg v hmem).mpr hv)
          obtain rfl := Option.some.inj hround
          rw [usage_emit, if_pos hold]
          refine ⟨by show cg₁.usage + 3 = _; omega, fun w hw => (hreg w hw).trans ?_⟩
          rw [List.mem_append, List.mem_singleton, not_or]
          refine ⟨fun h => ⟨h, fun hwv => h (hwv ▸ hold)⟩, fun h => h.1⟩

/-- **The code of a call.** -/
theorem usage_functionCall (h : cg.Inv) (label : Label) (hlen : args.length ≤ 6)
    (hargs : ∀ v ∈ args, v < cg.nextVar) {r : Codegen × Label}
    (hcall : archFunctionCall cg label args = some r) : r.1.usage = cg.usage +
      (4 * (cg.held (List.range cg.registerCount)).length +
        (3 * args.length + args.dedup.length + 5)) := by
  unfold archFunctionCall at hcall
  rw [if_pos (Nat.lt_succ_of_le hlen)] at hcall
  have hpop := codegenPopBlock_eq_run h
  unfold codegenPopBlock at hpop
  rw [hpop] at hcall
  obtain ⟨cg₁, hrun, hcall⟩ := Option.bind_eq_some_iff.mp hcall
  obtain ⟨cg₂, hloop, hcall⟩ := Option.bind_eq_some_iff.mp hcall
  obtain rfl := (Option.some.inj hcall).symm
  have hempty := registersEmpty_of_lru (h.run hrun) (pop_spec h hrun)
  have hnext : cg₁.nextVar = cg.nextVar := by
    have hcount := (counts_run hrun).2
    rwa [countP_popMoves, Nat.add_zero] at hcount
  obtain ⟨husage, -⟩ := passArguments_usage (fun v hv => hempty.2 v (hnext ▸ hargs v hv))
    (Nat.le_refl 6) hloop
  have hpopped := usage_run hrun
  rw [Codegen.popMoves, sum_codeBytes_evicts] at hpopped
  rw [foldl_setReg, usage_emit]
  show cg₂.usage + 5 = _
  rw [husage, hpopped, List.take_of_length_le hlen, show min 6 args.length = args.length by omega]
  omega

end Call

/-! ## The code of an action -/

/-- **The code of an action.** -/
theorem usage_action {s s' : Session} (h : s.Good) {op : SessionOp} (ha : s.Allowed op)
    (hstep : s.step op = some s') : s'.cg.usage = s.cg.usage + codeBytes s.cg op := by
  cases op with
  | newVar =>
      obtain ⟨cg, hcg, rfl⟩ := Option.map_eq_some_iff.mp hstep
      have husage := usage_run ((codegenNewVar_eq_run h.inv).symm.trans hcg)
      rw [Codegen.newVarMoves, List.map_append, List.sum_append, sum_codeBytes_allocMoves] at husage
      exact husage
  | ref v =>
      obtain ⟨⟨reg, cg⟩, hcg, rfl⟩ := Option.map_eq_some_iff.mp hstep
      rw [callDepth, variableRef_eq_run h.inv 3 ha] at hcg
      obtain ⟨cg, hrun, heq⟩ := Option.map_eq_some_iff.mp hcg
      obtain ⟨rfl, rfl⟩ := Prod.mk.inj heq
      have husage := usage_run hrun
      rw [Codegen.refMoves] at husage
      by_cases hr : (s.cg.vars v).reg ≥ 0
      · rw [if_pos hr] at husage
        simp only [codeBytes, stores, if_pos hr]
        exact husage
      · rw [if_neg hr, List.map_append, List.sum_append, sum_codeBytes_allocMoves] at husage
        simp only [codeBytes, stores, if_neg hr]
        exact husage
  | write value =>
      obtain ⟨⟨v, reg⟩, hgrant, rfl⟩ := Option.map_eq_some_iff.mp hstep
      rfl
  | store v =>
      obtain ⟨cg, hcg, rfl⟩ := Option.map_eq_some_iff.mp hstep
      have husage := usage_run ((variableStore_eq_run h.inv 1 ha).symm.trans hcg)
      rw [Codegen.storeMoves] at husage
      by_cases hr : (s.cg.vars v).reg ≥ 0
      · rw [if_pos hr] at husage
        simp only [codeBytes, stores, if_pos hr]
        exact husage
      · rw [if_neg hr, List.map_append, List.sum_append, sum_codeBytes_allocMoves] at husage
        simp only [codeBytes, stores, if_neg hr, List.length_append]
        refine husage.trans ?_
        show _ + (_ + 8) = _ + (4 * (_ + 1) + 4)
        omega
  | popBlock =>
      obtain ⟨cg, hcg, rfl⟩ := Option.map_eq_some_iff.mp hstep
      have husage := usage_run ((codegenPopBlock_eq_run h.inv).symm.trans hcg)
      rw [Codegen.popMoves, sum_codeBytes_evicts] at husage
      exact husage
  | functionCall label args clobber =>
      obtain ⟨r, hr, rfl⟩ := Option.map_eq_some_iff.mp hstep
      exact usage_functionCall h.inv label ha.1 ha.2 hr


/-- The code that has been emitted stays. -/
theorem code_run {cg cg' : Codegen} {ms : List Move}
    (hrun : run Codegen.moveStep cg ms = some cg') : cg'.code = cg.code ++ cg'.codeSince cg := by
  have hprefix : cg.code <+: cg'.code := by
    refine run_invariant (I := fun cg' => cg.code <+: cg'.code) (fun cg₁ m cg₂ hp hm => ?_)
      List.prefix_rfl hrun
    obtain ⟨-, rfl⟩ := moveStep_eq_some.mp hm
    exact code_move cg₁ m ▸ hp.trans (List.prefix_append ..)
  obtain ⟨es, hes⟩ := hprefix
  unfold Codegen.codeSince
  rw [← hes, List.drop_left]

theorem usage_codeSince {cg cg' : Codegen} {ms : List Move}
    (hrun : run Codegen.moveStep cg ms = some cg') :
    cg'.usage = cg.usage + ((cg'.codeSince cg).flatMap Emit.bytes).length := by
  unfold Codegen.usage
  rw [← List.length_append, ← List.flatMap_append, ← code_run hrun]

/-! ## Clients in room -/

/-- A step of a client. -/
def Session.clientStep : Buffered Session → ClientOp SessionOp → Option (Buffered Session) :=
  Buffered.step Session.cg Session.step

/-- What a client may do. -/
def Session.ClientAllowed : Buffered Session → ClientOp SessionOp → Prop :=
  Buffered.Allowed Session.Allowed

/-- The code of the step fits. -/
def Session.ClientFits : Buffered Session → ClientOp SessionOp → Prop :=
  Buffered.Fits fun s op => codeBytes s.cg op

instance (b : Buffered Session) (op : ClientOp SessionOp) :
    Decidable (Session.ClientAllowed b op) :=
  inferInstanceAs (Decidable (b.Allowed Session.Allowed op))

instance (b : Buffered Session) (op : ClientOp SessionOp) : Decidable (Session.ClientFits b op) :=
  inferInstanceAs (Decidable (b.Fits _ op))

/-- What holds of a client as long as its code fits. -/
structure Session.InRoom (b : Buffered Session) : Prop where
  good : b.state.Good
  registers : 0 < b.state.cg.registerCount
  frame : 4 * b.state.cg.frameSize ≤ b.state.cg.usage
  code : b.state.cg.usage ≤ b.usage
  small : b.Small
  stored : b.usage ≤ 2000

namespace Session.InRoom

variable {b b' : Buffered Session} {op : ClientOp SessionOp}

/-- There are not more variables than slots and registers. -/
theorem nextVar_lt (h : InRoom b) : b.state.cg.nextVar < 2 ^ 31 := by
  have hle := nextVar_le h.good.inv
  have hcount := h.good.inv.count_le
  have hframe := h.frame
  have hcode := h.code
  have hstored := h.stored
  omega

/-- **What a step pushes.** -/
theorem pushed (h : InRoom b) (ha : ClientAllowed b op) (hstep : clientStep b op = some b') :
    b'.usage = b.usage + b.emitted (fun s op => codeBytes s.cg op) op ∧ b'.Small ∧
      b'.state.cg.usage ≤ b'.usage := by
  cases op with
  | act op =>
      obtain ⟨s, hs, rfl⟩ := Option.map_eq_some_iff.mp hstep
      obtain ⟨ms, hrun, -⟩ := step_moves h.good ha hs
      have husage : s.cg.usage = b.state.cg.usage + codeBytes b.state.cg op :=
        usage_action h.good ha hs
      have hcode := usage_codeSince hrun
      have hpushed := b.usage_pushCode s (s.cg.codeSince b.state.cg)
      have hle := h.code
      refine ⟨hpushed.trans ?_, h.small.pushCode s _, ?_⟩
      · show _ = b.usage + codeBytes b.state.cg op
        omega
      · show s.cg.usage ≤ (b.pushCode s (s.cg.codeSince b.state.cg)).usage
        omega
  | emit bytes =>
      obtain rfl := Option.some.inj hstep
      have hpushed : ((b.pushes ++ bytes.map ([·])).map List.length).sum =
          b.usage + bytes.length := by
        have hlength : List.length ∘ (fun byte : UInt8 => [byte]) = fun _ => 1 := rfl
        rw [List.map_append, List.sum_append, List.map_map, hlength, List.map_const',
          List.sum_replicate_nat, Nat.mul_one]
        rfl
      refine ⟨hpushed, h.small.pushBytes bytes, ?_⟩
      have hle := h.code
      show b.state.cg.usage ≤ (List.map List.length _).sum
      rw [hpushed]
      omega

/-- **A step succeeds**, with its code stored if and only if it fits. -/
theorem step_exists (h : InRoom b) (ha : ClientAllowed b op) :
    ∃ b', clientStep b op = some b' ∧ (b'.Stored ↔ ClientFits b op) := by
  have hsome : ∃ b', clientStep b op = some b' := by
    cases op with
    | act op =>
        obtain ⟨s, hs, -⟩ := h.good.step_total h.registers h.nextVar_lt ha
        exact ⟨_, Option.map_eq_some_iff.mpr ⟨s, hs, rfl⟩⟩
    | emit bytes => exact ⟨_, rfl⟩
  obtain ⟨b', hstep⟩ := hsome
  obtain ⟨husage, hsmall, -⟩ := h.pushed ha hstep
  refine ⟨b', hstep, ?_⟩
  rw [Buffered.stored_iff hsmall, husage]
  exact Iff.rfl

theorem step (h : InRoom b) (ha : ClientAllowed b op) (hstep : clientStep b op = some b')
    (hstored : b'.Stored) : InRoom b' := by
  obtain ⟨-, hsmall, hcode⟩ := h.pushed ha hstep
  have hle := (Buffered.stored_iff hsmall).mp hstored
  cases op with
  | act op =>
      obtain ⟨s, hs, rfl⟩ := Option.map_eq_some_iff.mp hstep
      obtain ⟨ms, hrun, -⟩ := step_moves h.good ha hs
      exact ⟨h.good.step ha hs, (counts_run hrun).1 ▸ h.registers, frame_le_usage h.frame hrun,
        hcode, hsmall, hle⟩
  | emit bytes =>
      obtain rfl := Option.some.inj hstep
      exact ⟨h.good, h.registers, h.frame, hcode, hsmall, hle⟩

theorem start {registerCount : ℕ} (h1 : 1 ≤ registerCount) (h10 : registerCount ≤ 10)
    {argCount : ℕ} (hargs : argCount = 0 ∨ 7 ≤ registerCount ∧ argCount ≤ 6)
    (machine : Machine) : InRoom ⟨Session.start registerCount argCount machine, []⟩ := by
  obtain ⟨-, hcount, -, -, hframe, hcode⟩ := initFunction_spec h10 hargs
  have husage : (Session.start registerCount argCount machine).cg.usage = 0 := by
    show ((codegenInitFunction (codegenInit registerCount) argCount).code.flatMap _).length = 0
    rw [hcode]
    rfl
  refine ⟨Session.start_good h10 hargs machine, ?_, ?_, husage.le, nofun, Nat.zero_le _⟩
  · show 0 < (codegenInitFunction (codegenInit registerCount) argCount).registerCount
    omega
  · show 4 * (codegenInitFunction (codegenInit registerCount) argCount).frameSize ≤ _
    omega

end Session.InRoom

/-! ## Homes -/

/-- The step succeeds, all the code is stored, and every variable that has been written is in
its register, or in its slot when it has none. -/
def KeepsHomes (b : Buffered Session) (op : ClientOp SessionOp) : Prop :=
  ∃ b', Session.clientStep b op = some b' ∧ b'.Stored ∧
    ∀ v, HasHome b'.state.cg b'.state.machine b'.state.value v

/-- **Every variable has one home exactly as long as the code fits.**  Whatever a client does,
with code of its own in between, every step succeeds, stores its code inside the buffer and
leaves the value last written to a variable in its register, or in its stack slot when it has no
register, if and only if before each step the bytes in the buffer and those that the step emits
are at most 2000. -/
theorem variables_have_homes_iff (registerCount : ℕ) (h7 : 7 ≤ registerCount)
    (h10 : registerCount ≤ 10) (argCount : ℕ) (hargs : argCount ≤ 6) (machine : Machine)
    (ops : List (ClientOp SessionOp))
    (hall : AllSteps Session.clientStep Session.ClientAllowed
      ⟨Session.start registerCount argCount machine, []⟩ ops) :
    (∀ v, HasHome (Session.start registerCount argCount machine).cg machine
      (Session.start registerCount argCount machine).value v) ∧
    (AllSteps Session.clientStep KeepsHomes
        ⟨Session.start registerCount argCount machine, []⟩ ops ↔
      AllSteps Session.clientStep Session.ClientFits
        ⟨Session.start registerCount argCount machine, []⟩ ops) := by
  have hstart := Session.InRoom.start (by omega) h10 (Or.inr ⟨h7, hargs⟩) machine
  refine ⟨hstart.good.home, allSteps_iff_of_inv (I := Session.InRoom) ?_ ?_ _ _ hstart hall⟩
  · intro b op h ha
    obtain ⟨b', hstep, hiff⟩ := h.step_exists ha
    constructor
    · rintro ⟨t, ht, hstored, -⟩
      obtain rfl := Option.some.inj (hstep.symm.trans ht)
      exact hiff.mp hstored
    · intro hfits
      exact ⟨b', hstep, hiff.mpr hfits, (h.step ha hstep (hiff.mpr hfits)).good.home⟩
  · rintro b op b' h ha ⟨t, ht, hstored, -⟩ hstep
    obtain rfl := Option.some.inj (hstep.symm.trans ht)
    exact h.step ha hstep hstored

/-- A session under pressure: nine variables in seven registers, with a constant moved to a
register, and a call. -/
theorem variables_have_homes_nine :
    AllSteps Session.clientStep KeepsHomes ⟨Session.start 7 2 ⟨fun _ => 0, fun _ => 0⟩, []⟩
      [.act .newVar, .act (.ref 2), .emit [0x48, 0xBB, 5, 0, 0, 0, 0, 0, 0, 0], .act (.write 5),
        .act .newVar, .act .newVar, .act .newVar, .act .newVar, .act .newVar, .act .newVar,
        .act (.ref 0), .act (.store 1), .act (.functionCall {} [2, 0, 2] (fun _ => 1)),
        .act (.ref 2), .act (.write 6), .act .popBlock] :=
  (variables_have_homes_iff 7 (by decide) (by decide) 2 (by decide) ⟨fun _ => 0, fun _ => 0⟩ _
    (by decide +kernel)).2.mpr (by decide +kernel)

theorem allSteps_replicate {S A : Type*} {step : S → A → Option S} {P : S → A → Prop} {a : A}
    (h : ∀ s, P s a) (n : ℕ) (s : S) : AllSteps step P s (List.replicate n a) := by
  induction n generalizing s with
  | zero => trivial
  | succ n ih => exact ⟨h s, fun s' _ => ih s'⟩

/-- A call of a function without arguments. -/
def plainCall : SessionOp := .functionCall {} [] fun _ => 0

/-- **The 401st call does not fit**: its last bytes are stored past the end of the buffer. -/
theorem variables_not_stored : ¬ ∀ registerCount, 7 ≤ registerCount → registerCount ≤ 10 →
    ∀ argCount ≤ 6, ∀ (machine : Machine) (ops : List (ClientOp SessionOp)),
      AllSteps Session.clientStep Session.ClientAllowed
        ⟨Session.start registerCount argCount machine, []⟩ ops →
      AllSteps Session.clientStep KeepsHomes
        ⟨Session.start registerCount argCount machine, []⟩ ops := by
  intro hclaim
  have hgrows : ∀ n (b : Buffered Session), Session.InRoom b →
      AllSteps Session.clientStep KeepsHomes b (List.replicate n (.act plainCall)) →
      b.usage + 5 * n ≤ 2000 := by
    intro n
    induction n with
    | zero => exact fun b h _ => h.stored
    | succ n ih =>
        rintro b h ⟨⟨b', hstep, hstored, -⟩, hrest⟩
        have ha : Session.ClientAllowed b (.act plainCall) := ⟨Nat.zero_le 6, nofun⟩
        have husage : b'.usage = b.usage + codeBytes b.state.cg plainCall := (h.pushed ha hstep).1
        have hbytes : 5 ≤ codeBytes b.state.cg plainCall := Nat.le_add_left 5 _
        have hle := ih b' (h.step ha hstep hstored) (hrest b' hstep)
        omega
  have hkeeps := hclaim 10 (by decide) (by decide) 0 (by decide) ⟨fun _ => 0, fun _ => 0⟩
    (List.replicate 401 (.act plainCall))
    (allSteps_replicate (fun _ => ⟨Nat.zero_le 6, nofun⟩) _ _)
  have hstart := Session.InRoom.start (by decide) (Nat.le_refl 10) (.inl rfl)
    ⟨fun _ => 0, fun _ => 0⟩
  have hle := hgrows 401 _ hstart hkeeps
  omega

/-! ## Displacements -/

theorem start_slotCode {registerCount argCount : ℕ} (h10 : registerCount ≤ 10)
    (hargs : argCount = 0 ∨ 7 ≤ registerCount ∧ argCount ≤ 6) (machine : Machine) :
    SlotCode (Session.start registerCount argCount machine).cg ∧
      (Session.start registerCount argCount machine).cg.frameSize = 0 := by
  obtain ⟨hinv, -, -, -, hframe, hcode⟩ := initFunction_spec h10 hargs
  refine ⟨⟨fun e he => ?_, fun v hv hpos => ?_⟩, hframe⟩
  · change e ∈ (codegenInitFunction (codegenInit registerCount) argCount).code at he
    rw [hcode] at he
    cases he
  · have hslot := hinv.slot v hv
    change 0 < ((codegenInitFunction (codegenInit registerCount) argCount).vars v).stackPos at hpos
    omega

/-- The slots that a step gives out. -/
def clientSlots (cg : Codegen) : ClientOp SessionOp → ℕ
  | .act op => newSlots cg op
  | .emit _ => 0

/-- **The displacement bytes of a run are exact, and its code is stored, if and only if sixteen
slots are enough and the code fits.**  Every state reached has exact displacements and all its
code inside the buffer exactly when, before each step, the slots given out and those the step
gives out are at most sixteen, and the bytes in the buffer and those the step emits are at most
2000. -/
theorem slots_exact_iff (registerCount : ℕ) (h1 : 1 ≤ registerCount) (h10 : registerCount ≤ 10)
    (argCount : ℕ) (hargs : argCount = 0 ∨ 7 ≤ registerCount ∧ argCount ≤ 6) (machine : Machine)
    (ops : List (ClientOp SessionOp))
    (hall : AllSteps Session.clientStep Session.ClientAllowed
      ⟨Session.start registerCount argCount machine, []⟩ ops) :
    AllSteps Session.clientStep
        (fun b op => ∀ b', Session.clientStep b op = some b' → SlotsExact b'.state.cg ∧ b'.Stored)
        ⟨Session.start registerCount argCount machine, []⟩ ops ↔
      AllSteps Session.clientStep
        (fun b op => b.state.cg.frameSize + clientSlots b.state.cg op ≤ 16 ∧
          Session.ClientFits b op)
        ⟨Session.start registerCount argCount machine, []⟩ ops := by
  have hroom := Session.InRoom.start h1 h10 hargs machine
  obtain ⟨hslots, hframe⟩ := start_slotCode h10 hargs machine
  refine allSteps_iff_of_inv
    (I := fun b => Session.InRoom b ∧ SlotCode b.state.cg ∧ b.state.cg.frameSize ≤ 16)
    ?_ ?_ _ _ ⟨hroom, hslots, hframe.le.trans (Nat.zero_le 16)⟩ hall
  · rintro b op ⟨h, hc, hle⟩ ha
    have hexact : (∀ b', Session.clientStep b op = some b' → SlotsExact b'.state.cg) ↔
        b.state.cg.frameSize + clientSlots b.state.cg op ≤ 16 := by
      cases op with
      | act op =>
          rw [clientSlots, ← step_slotsExact_iff h.good hc h.registers hle ha]
          constructor
          · exact fun hall s hs => hall _ (Option.map_eq_some_iff.mpr ⟨s, hs, rfl⟩)
          · rintro hall b' hstep
            obtain ⟨s, hs, rfl⟩ := Option.map_eq_some_iff.mp hstep
            exact hall s hs
      | emit bytes =>
          refine iff_of_true ?_ hle
          rintro b' hstep
          obtain rfl := Option.some.inj hstep
          exact (slotsExact_iff h.good.inv hc).mpr hle
    obtain ⟨b', hstep, hstored⟩ := h.step_exists ha
    constructor
    · intro hboth
      exact ⟨hexact.mp fun t ht => (hboth t ht).1, hstored.mp (hboth b' hstep).2⟩
    · rintro ⟨hfew, hfits⟩ t ht
      obtain rfl := Option.some.inj (hstep.symm.trans ht)
      exact ⟨hexact.mpr hfew b' hstep, hstored.mpr hfits⟩
  · rintro b op b' ⟨h, hc, -⟩ ha hboth hstep
    have h' := h.step ha hstep (hboth b' hstep).2
    have hc' : SlotCode b'.state.cg := by
      cases op with
      | act op =>
          obtain ⟨s, hs, rfl⟩ := Option.map_eq_some_iff.mp hstep
          obtain ⟨ms, hrun, -⟩ := step_moves h.good ha hs
          exact hc.run h.good.inv hrun
      | emit bytes =>
          obtain rfl := Option.some.inj hstep
          exact hc
    exact ⟨h', hc', (slotsExact_iff h'.good.inv hc').mp (hboth b' hstep).1⟩

/-- A run that stays within sixteen slots. -/
theorem slots_exact_iff_few :
    AllSteps Session.clientStep
      (fun b op => ∀ b', Session.clientStep b op = some b' → SlotsExact b'.state.cg ∧ b'.Stored)
      ⟨Session.start 10 2 ⟨fun _ => 0, fun _ => 0⟩, []⟩
      ([.newVar, .ref 0, .store 0, .newVar, .ref 0, .popBlock, .ref 2, .newVar,
        .popBlock].map .act) :=
  (slots_exact_iff 10 (by decide) (by decide) 2 (by decide) ⟨fun _ => 0, fun _ => 0⟩ _
    (by decide +kernel)).mpr (by decide +kernel)

/-! ## Calls of the allocator -/

/-- A step of a run of calls, with code of the client's own in between. -/
def Codegen.clientStep : Buffered Codegen → ClientOp AllocOp → Option (Buffered Codegen) :=
  Buffered.step id Codegen.step

/-- What a client may do. -/
def Codegen.ClientAllowed : Buffered Codegen → ClientOp AllocOp → Prop :=
  Buffered.Allowed Codegen.Allowed

/-- The code of the step fits. -/
def Codegen.ClientFits : Buffered Codegen → ClientOp AllocOp → Prop :=
  Buffered.Fits fun cg op => codeBytes cg op.toSession

instance (b : Buffered Codegen) (op : ClientOp AllocOp) :
    Decidable (Codegen.ClientAllowed b op) :=
  inferInstanceAs (Decidable (b.Allowed Codegen.Allowed op))

instance (b : Buffered Codegen) (op : ClientOp AllocOp) : Decidable (Codegen.ClientFits b op) :=
  inferInstanceAs (Decidable (b.Fits _ op))

/-- The client in which no variable has been written. -/
def Buffered.idle (b : Buffered Codegen) : Buffered Session := ⟨b.state.idle, b.pushes⟩

/-- The call as an action of a client. -/
def ClientOp.toSession : ClientOp AllocOp → ClientOp SessionOp
  | .act op => .act op.toSession
  | .emit bytes => .emit bytes

section Calls

variable {b b' : Buffered Codegen} {op : ClientOp AllocOp} {ops : List (ClientOp AllocOp)}

theorem clientAllowed_idle : Session.ClientAllowed b.idle op.toSession ↔
    Codegen.ClientAllowed b op := by
  cases op with
  | act op => exact allowed_idle
  | emit bytes => exact Iff.rfl

/-- A call is the action of the client. -/
theorem clientStep_idle (hstep : Codegen.clientStep b op = some b') :
    ∃ t, Session.clientStep b.idle op.toSession = some t ∧ t.state.cg = b'.state ∧
      t.pushes = b'.pushes := by
  cases op with
  | act op =>
      obtain ⟨cg, hcg, rfl⟩ := Option.map_eq_some_iff.mp hstep
      rw [← map_step_idle] at hcg
      obtain ⟨s, hs, rfl⟩ := Option.map_eq_some_iff.mp hcg
      exact ⟨_, Option.map_eq_some_iff.mpr ⟨s, hs, rfl⟩, rfl, rfl⟩
  | emit bytes =>
      obtain rfl := Option.some.inj hstep
      exact ⟨_, rfl, rfl, rfl⟩

theorem Session.InRoom.idle {t : Buffered Session} (h : Session.InRoom t)
    (hcg : t.state.cg = b.state) (hpushes : t.pushes = b.pushes) : Session.InRoom b.idle := by
  obtain ⟨cg, pushes⟩ := b
  obtain ⟨s, pushes'⟩ := t
  obtain rfl : s.cg = cg := hcg
  obtain rfl : pushes' = pushes := hpushes
  exact ⟨h.good.inv.idle, h.registers, h.frame, h.code, h.small, h.stored⟩

/-- **A call succeeds**, with its code stored if and only if it fits. -/
theorem call_stored (h : Session.InRoom b.idle) (ha : Codegen.ClientAllowed b op) :
    ∃ b', Codegen.clientStep b op = some b' ∧ (b'.Stored ↔ Codegen.ClientFits b op) ∧
      (b'.Stored → Session.InRoom b'.idle) := by
  have hidle := clientAllowed_idle.mpr ha
  have hsome : ∃ b', Codegen.clientStep b op = some b' := by
    cases op with
    | act op =>
        obtain ⟨cg, hcg, -⟩ := step_total h.good.inv h.registers h.nextVar_lt ha
        exact ⟨_, Option.map_eq_some_iff.mpr ⟨cg, hcg, rfl⟩⟩
    | emit bytes => exact ⟨_, rfl⟩
  obtain ⟨b', hstep⟩ := hsome
  obtain ⟨t, ht, hcg, hpushes⟩ := clientStep_idle hstep
  obtain ⟨t', ht', hiff⟩ := h.step_exists hidle
  obtain rfl := Option.some.inj (ht.symm.trans ht')
  have hstored : b'.Stored ↔ t.Stored := by
    unfold Buffered.Stored
    rw [hpushes]
  refine ⟨b', hstep, hstored.trans (hiff.trans ?_), fun hs => ?_⟩
  · cases op <;> exact Iff.rfl
  · exact (h.step hidle ht (hstored.mp hs)).idle hcg hpushes

theorem small_run (h : b.Small) (hrun : run Codegen.clientStep b ops = some b') : b'.Small := by
  refine run_invariant (fun b op b' hb hstep => ?_) h hrun
  cases op with
  | act op =>
      obtain ⟨cg, -, rfl⟩ := Option.map_eq_some_iff.mp hstep
      exact hb.pushCode _ _
  | emit bytes =>
      obtain rfl := Option.some.inj hstep
      exact hb.pushBytes bytes

/-- What has been pushed stays. -/
theorem pushes_stay (hrun : run Codegen.clientStep b ops = some b') : b.pushes <+: b'.pushes := by
  refine run_invariant (I := fun b' => b.pushes <+: b'.pushes) (fun b₁ op b₂ hp hstep => ?_)
    List.prefix_rfl hrun
  cases op with
  | act op =>
      obtain ⟨cg, -, rfl⟩ := Option.map_eq_some_iff.mp hstep
      exact hp.trans (List.prefix_append ..)
  | emit bytes =>
      obtain rfl := Option.some.inj hstep
      exact hp.trans (List.prefix_append ..)

/-- If all pushes of a buffer are stored, so were the first ones. -/
theorem Buffered.Stored.before (h : b'.Stored) (hp : b.pushes <+: b'.pushes) : b.Stored := by
  obtain ⟨more, hmore⟩ := hp
  unfold Buffered.Stored PushesStored at h ⊢
  rw [← hmore, List.map_append, everyStep_append] at h
  exact h.1

/-- **A run of calls whose code fits** succeeds, and all its code is stored. -/
theorem calls_stored (h : Session.InRoom b.idle)
    (hall : AllSteps Codegen.clientStep Codegen.ClientAllowed b ops)
    (hfits : AllSteps Codegen.clientStep Codegen.ClientFits b ops) :
    ∃ b', run Codegen.clientStep b ops = some b' ∧ Session.InRoom b'.idle := by
  induction ops generalizing b with
  | nil => exact ⟨b, rfl, h⟩
  | cons op ops ih =>
      obtain ⟨b₁, hstep, hiff, hroom⟩ := call_stored h hall.1
      obtain ⟨b', hrun, h'⟩ := ih (hroom (hiff.mpr hfits.1)) (hall.2 b₁ hstep)
        (hfits.2 b₁ hstep)
      exact ⟨b', run_cons_eq_some.mpr ⟨b₁, hstep, hrun⟩, h'⟩

/-- If the code of a run is stored, then the code of every step fitted. -/
theorem calls_fit (h : Session.InRoom b.idle)
    (hall : AllSteps Codegen.clientStep Codegen.ClientAllowed b ops)
    (hrun : run Codegen.clientStep b ops = some b') (hstored : b'.Stored) :
    AllSteps Codegen.clientStep Codegen.ClientFits b ops := by
  induction ops generalizing b with
  | nil => trivial
  | cons op ops ih =>
      obtain ⟨b₁, hstep, hrest⟩ := run_cons_eq_some.mp hrun
      obtain ⟨t, ht, hiff, hroom⟩ := call_stored h hall.1
      obtain rfl := Option.some.inj (hstep.symm.trans ht)
      have hfirst : b₁.Stored := hstored.before (pushes_stay hrest)
      refine ⟨hiff.mp hfirst, fun t ht' => ?_⟩
      obtain rfl := Option.some.inj (hstep.symm.trans ht')
      exact ih (hroom hfirst) (hall.2 b₁ hstep) hrest

/-- The calls of a run are a run of the allocator. -/
theorem run_calls (hrun : run Codegen.clientStep b ops = some b') :
    run Codegen.step b.state (ClientOp.calls ops) = some b'.state := by
  induction ops generalizing b with
  | nil =>
      obtain rfl := Option.some.inj hrun
      rfl
  | cons op ops ih =>
      obtain ⟨b₁, hstep, hrest⟩ := run_cons_eq_some.mp hrun
      cases op with
      | act op =>
          obtain ⟨cg, hcg, rfl⟩ := Option.map_eq_some_iff.mp hstep
          exact run_cons_eq_some.mpr ⟨cg, hcg, ih hrest⟩
      | emit bytes =>
          obtain rfl := Option.some.inj hstep
          have hcalls := ih hrest
          exact hcalls

theorem allowed_calls (hall : AllSteps Codegen.clientStep Codegen.ClientAllowed b ops) :
    AllSteps Codegen.step Codegen.Allowed b.state (ClientOp.calls ops) := by
  induction ops generalizing b with
  | nil => trivial
  | cons op ops ih =>
      cases op with
      | act op =>
          refine ⟨hall.1, fun cg hcg => ?_⟩
          exact ih (hall.2 _ (Option.map_eq_some_iff.mpr ⟨cg, hcg, rfl⟩))
      | emit bytes =>
          have hcalls := ih (hall.2 ⟨b.state, b.pushes ++ bytes.map ([·])⟩ rfl)
          exact hcalls

end Calls

/-- The state after `codegen_initFunction`, with nothing in the buffer. -/
def Codegen.started (registerCount argCount : ℕ) : Buffered Codegen :=
  ⟨codegenInitFunction (codegenInit registerCount) argCount, []⟩

section Started

variable {registerCount argCount : ℕ} (h7 : 7 ≤ registerCount) (h10 : registerCount ≤ 10)
  (hargs : argCount ≤ 6)
include h7 h10 hargs

theorem started_inRoom : Session.InRoom (Codegen.started registerCount argCount).idle :=
  (Session.InRoom.start (by omega) h10 (Or.inr ⟨h7, hargs⟩) ⟨fun _ => 0, fun _ => 0⟩).idle rfl rfl

/-- The invariant and the order of use, after any run of calls. -/
theorem started_run {ops : List (ClientOp AllocOp)} {b : Buffered Codegen}
    (hall : AllSteps Codegen.clientStep Codegen.ClientAllowed
      (Codegen.started registerCount argCount) ops)
    (hrun : run Codegen.clientStep (Codegen.started registerCount argCount) ops = some b) :
    b.state.Inv ∧ b.state.Ordered
      (List.range argCount ++ usedVars argCount (ClientOp.calls ops)) := by
  obtain ⟨hinv, -, hnext, -⟩ := initFunction_spec h10 (Or.inr ⟨h7, hargs⟩)
  have hboth := ordered_run hinv (initFunction_ordered h10 (Or.inr ⟨h7, hargs⟩)) _
    (allowed_calls hall) (run_calls hrun)
  rwa [hnext] at hboth

end Started

/-! ## The register tables -/

/-- What holds of a state after the uses of variables in `history`: all the code is stored, the
tables agree and are in order of last use, a register is allocated by evicting the least recently
used variable, and `codegen_popBlock` and calls leave no variable in a register, as long as the
code each of them emits fits. -/
structure Codegen.TablesHold (b : Buffered Codegen) (history : List ℕ) : Prop where
  stored : b.Stored
  tables : b.state.Tables history
  allocates : b.usage + 4 * b.state.allocStores.length ≤ 2000 →
    (∃ r, codegenAllocateReg callDepth b.state = some r ∧
      (b.pushCode r.2 (r.2.codeSince b.state)).Stored) ∧
    b.state.AllocatesLru history
  popBlock : Codegen.ClientFits b (.act .popBlock) →
    ∃ b', Codegen.clientStep b (.act .popBlock) = some b' ∧ b'.Stored ∧ b'.state.RegistersEmpty
  functionCall : ∀ label args, args.length ≤ 6 → (∀ v ∈ args, v < b.state.nextVar) →
    Codegen.ClientFits b (.act (.functionCall label args)) →
      ∃ b', Codegen.clientStep b (.act (.functionCall label args)) = some b' ∧ b'.Stored ∧
        b'.state.RegistersEmpty

theorem tablesHold_of_inRoom {b : Buffered Codegen} {history : List ℕ}
    (h : Session.InRoom b.idle) (ho : b.state.Ordered history) :
    Codegen.TablesHold b history := by
  have hinv : b.state.Inv := h.good.inv
  refine ⟨(Buffered.stored_iff h.small).mpr h.stored, tables_of_inv hinv ho, fun hfits => ?_,
    fun hfits => ?_, fun label args hlen hargs hfits => ?_⟩
  · obtain ⟨cg', halloc⟩ := alloc_total hinv h.registers h.nextVar_lt
    have heq : codegenAllocateReg callDepth b.state = some ((b.state.allocReg : ℤ), cg') := by
      rw [callDepth, codegenAllocateReg_eq_run hinv, halloc]
      rfl
    have hsmall : b.Small := h.small
    refine ⟨⟨_, heq, (Buffered.stored_iff (hsmall.pushCode _ _)).mpr ?_⟩,
      allocatesLru_of_inv hinv ho⟩
    have hmoves := usage_run halloc
    have hcode := usage_codeSince halloc
    rw [sum_codeBytes_allocMoves] at hmoves
    rw [Buffered.usage_pushCode]
    show b.usage + ((cg'.codeSince b.state).flatMap Emit.bytes).length ≤ 2000
    omega
  · obtain ⟨b', hstep, hiff, -⟩ := call_stored h (show Codegen.ClientAllowed b (.act .popBlock)
      from trivial)
    refine ⟨b', hstep, hiff.mpr hfits, ?_⟩
    obtain ⟨cg', hcg, rfl⟩ := Option.map_eq_some_iff.mp hstep
    exact popBlock_empties hinv hcg
  · obtain ⟨b', hstep, hiff, -⟩ := call_stored h
      (show Codegen.ClientAllowed b (.act (.functionCall label args)) from ⟨hlen, hargs⟩)
    refine ⟨b', hstep, hiff.mpr hfits, ?_⟩
    obtain ⟨cg', hcg, rfl⟩ := Option.map_eq_some_iff.mp hstep
    obtain ⟨r, hcall, rfl⟩ := Option.map_eq_some_iff.mp hcg
    exact functionCall_empties hinv label hlen hargs hcall

/-- **The register tables hold exactly as long as the code fits.**  Whatever calls are made after
`codegen_initFunction`, with code of the client's own in between, they succeed with all the code
stored, the tables saying the same and the list in order of last use, if and only if before each
step the bytes in the buffer and those that the step emits are at most 2000. -/
theorem registerTables_hold_iff (registerCount : ℕ) (h7 : 7 ≤ registerCount)
    (h10 : registerCount ≤ 10) (argCount : ℕ) (hargs : argCount ≤ 6)
    (ops : List (ClientOp AllocOp))
    (hall : AllSteps Codegen.clientStep Codegen.ClientAllowed
      (Codegen.started registerCount argCount) ops) :
    (∃ b, run Codegen.clientStep (Codegen.started registerCount argCount) ops = some b ∧
        Codegen.TablesHold b (List.range argCount ++ usedVars argCount (ClientOp.calls ops))) ↔
      AllSteps Codegen.clientStep Codegen.ClientFits (Codegen.started registerCount argCount)
        ops := by
  have hroom := started_inRoom h7 h10 hargs
  constructor
  · rintro ⟨b, hrun, htables⟩
    exact calls_fit hroom hall hrun htables.stored
  · intro hfits
    obtain ⟨b, hrun, h⟩ := calls_stored hroom hall hfits
    exact ⟨b, hrun, tablesHold_of_inRoom h (started_run h7 h10 hargs hall hrun).2⟩

/-- Nine variables in seven registers: the two used least recently are out, and a variable out of
registers is stored by reloading it. -/
theorem registerTables_hold_iff_nine :
    ∃ b, run Codegen.clientStep (Codegen.started 7 2)
        ([.newVar, .ref 0, .newVar, .newVar, .newVar, .newVar, .newVar, .newVar, .store 1,
          .functionCall {} [2, 0, 2], .ref 2, .popBlock].map .act) = some b ∧
      Codegen.TablesHold b [0, 1, 2, 0, 3, 4, 5, 6, 7, 8, 1, 2] :=
  (registerTables_hold_iff 7 (by decide) (by decide) 2 (by decide) _ (by decide +kernel)).mpr
    (by decide +kernel)

theorem allowed_plainCalls (b : Buffered Codegen) (n : ℕ) :
    AllSteps Codegen.clientStep Codegen.ClientAllowed b
      (List.replicate n (.act (.functionCall {} []))) :=
  allSteps_replicate (fun _ => ⟨Nat.zero_le 6, nofun⟩) n b

/-- Calls of functions without arguments that fit. -/
theorem usage_plainCalls {b : Buffered Codegen} {n : ℕ} (h : Session.InRoom b.idle)
    (hfits : AllSteps Codegen.clientStep Codegen.ClientFits b
      (List.replicate n (.act (.functionCall {} [])))) : b.usage + 5 * n ≤ 2000 := by
  induction n generalizing b with
  | zero => exact h.stored
  | succ n ih =>
      have ha : Codegen.ClientAllowed b (.act (.functionCall {} [])) := ⟨Nat.zero_le 6, nofun⟩
      obtain ⟨b₁, hstep, hiff, hroom⟩ := call_stored h ha
      have hle := ih (hroom (hiff.mpr hfits.1)) (hfits.2 b₁ hstep)
      obtain ⟨t, ht, -, hpushes⟩ := clientStep_idle hstep
      have husage : t.usage = b.usage + codeBytes b.state plainCall :=
        (h.pushed (clientAllowed_idle.mpr ha) ht).1
      have hsame : t.usage = b₁.usage := congrArg (fun p => (p.map List.length).sum) hpushes
      have hbytes : 5 ≤ codeBytes b.state plainCall := Nat.le_add_left 5 _
      omega

/-- **After 401 calls the tables do not hold**: the last call is stored past the end of the
buffer. -/
theorem registerTables_not_held : ¬ ∀ registerCount, 7 ≤ registerCount → registerCount ≤ 10 →
    ∀ argCount ≤ 6, ∀ ops : List (ClientOp AllocOp),
      AllSteps Codegen.clientStep Codegen.ClientAllowed (Codegen.started registerCount argCount)
        ops →
      ∃ b, run Codegen.clientStep (Codegen.started registerCount argCount) ops = some b ∧
        Codegen.TablesHold b
          (List.range argCount ++ usedVars argCount (ClientOp.calls ops)) := by
  intro hclaim
  have hall := allowed_plainCalls (Codegen.started 10 0) 401
  obtain ⟨b, hrun, htables⟩ := hclaim 10 (by decide) (by decide) 0 (by decide) _ hall
  have hroom := started_inRoom (by decide) (Nat.le_refl 10) (Nat.zero_le 6)
  have hle := usage_plainCalls hroom (calls_fit hroom hall hrun htables.stored)
  omega

/-! ## Arguments -/

/-- **A call passes its arguments exactly if its code fits.**  In every state reached after
`codegen_initFunction`, with code of the client's own in between, a call with at most six of the
variables created so far, in registers or not and with repetitions, succeeds with all the code
stored, saves every variable and leaves the value of the `i`-th argument in the `i`-th argument
register, if and only if the bytes in the buffer and those that the call emits are at most
2000. -/
theorem functionCall_passes_iff (registerCount : ℕ) (h7 : 7 ≤ registerCount)
    (h10 : registerCount ≤ 10) (argCount : ℕ) (hcount : argCount ≤ 6)
    (ops : List (ClientOp AllocOp))
    (hall : AllSteps Codegen.clientStep Codegen.ClientAllowed
      (Codegen.started registerCount argCount) ops) (b : Buffered Codegen)
    (hrun : run Codegen.clientStep (Codegen.started registerCount argCount) ops = some b)
    (label : Label) (args : List ℕ) (hlen : args.length ≤ 6)
    (hargs : ∀ v ∈ args, v < b.state.nextVar) :
    (∃ b', Codegen.clientStep b (.act (.functionCall label args)) = some b' ∧ b'.Stored ∧
        PassesArguments b.state b'.state args) ↔
      Codegen.ClientFits b (.act (.functionCall label args)) := by
  have hroom := started_inRoom h7 h10 hcount
  have ha : Codegen.ClientAllowed b (.act (.functionCall label args)) := ⟨hlen, hargs⟩
  constructor
  · rintro ⟨b', hstep, hstored, -⟩
    have hbefore : b.Stored := by
      obtain ⟨cg, -, rfl⟩ := Option.map_eq_some_iff.mp hstep
      exact hstored.before (List.prefix_append ..)
    obtain ⟨t, ht, h⟩ := calls_stored hroom hall (calls_fit hroom hall hrun hbefore)
    obtain rfl := Option.some.inj (hrun.symm.trans ht)
    obtain ⟨t, ht, hiff, -⟩ := call_stored h ha
    obtain rfl := Option.some.inj (hstep.symm.trans ht)
    exact hiff.mp hstored
  · intro hfits
    have hsmall : b.Small := small_run hroom.small hrun
    have hbefore : b.Stored :=
      (Buffered.stored_iff hsmall).mpr ((Nat.le_add_right _ _).trans hfits)
    obtain ⟨t, ht, h⟩ := calls_stored hroom hall (calls_fit hroom hall hrun hbefore)
    obtain rfl := Option.some.inj (hrun.symm.trans ht)
    obtain ⟨b', hstep, hiff, -⟩ := call_stored h ha
    refine ⟨b', hstep, hiff.mpr hfits, ?_⟩
    obtain ⟨cg, hcg, rfl⟩ := Option.map_eq_some_iff.mp hstep
    obtain ⟨r, hcall, rfl⟩ := Option.map_eq_some_iff.mp hcg
    exact archFunctionCall_passes h.good.inv label hlen hargs hcall

/-- The first argument of a function of two arguments is passed three times, around a variable
that has been evicted. -/
theorem functionCall_passes_iff_repeated :
    ∃ b, run Codegen.clientStep (Codegen.started 7 2)
        ([.newVar, .store 2, .newVar, .ref 0].map .act) = some b ∧
      ∃ b', Codegen.clientStep b (.act (.functionCall {} [0, 2, 0, 1, 0])) = some b' ∧
        b'.Stored ∧ PassesArguments b.state b'.state [0, 2, 0, 1, 0] := by
  have hall : AllSteps Codegen.clientStep Codegen.ClientAllowed (Codegen.started 7 2)
      ([.newVar, .store 2, .newVar, .ref 0].map .act) := by decide +kernel
  have hend : (run Codegen.clientStep (Codegen.started 7 2)
      ([.newVar, .store 2, .newVar, .ref 0].map .act)).any (fun b => b.state.nextVar = 4 &&
        Codegen.ClientFits b (.act (.functionCall {} [0, 2, 0, 1, 0]))) := by decide +kernel
  obtain ⟨b, hrun, hboth⟩ := (Option.any_eq_true _ _).mp hend
  rw [Bool.and_eq_true, decide_eq_true_iff, decide_eq_true_iff] at hboth
  refine ⟨b, hrun, (functionCall_passes_iff 7 (by decide) (by decide) 2 (by decide) _ hall b hrun
    {} [0, 2, 0, 1, 0] (by decide) ?_).mpr hboth.2⟩
  rw [hboth.1]
  decide

/-- **The call after 400 calls does not pass its arguments inside the buffer.** -/
theorem functionCall_not_stored : ¬ ∀ registerCount, 7 ≤ registerCount → registerCount ≤ 10 →
    ∀ argCount ≤ 6, ∀ ops : List (ClientOp AllocOp),
      AllSteps Codegen.clientStep Codegen.ClientAllowed (Codegen.started registerCount argCount)
        ops →
      ∀ b, run Codegen.clientStep (Codegen.started registerCount argCount) ops = some b →
        ∀ label args, args.length ≤ 6 → (∀ v ∈ args, v < b.state.nextVar) →
          ∃ b', Codegen.clientStep b (.act (.functionCall label args)) = some b' ∧ b'.Stored ∧
            PassesArguments b.state b'.state args := by
  intro hclaim
  have hcall := fun n b hrun => hclaim 10 (by decide) (by decide) 0 (by decide) _
    (allowed_plainCalls (Codegen.started 10 0) n) b hrun {} [] (Nat.zero_le 6) nofun
  have hgrows : ∀ n, ∃ b, run Codegen.clientStep (Codegen.started 10 0)
      (List.replicate n (.act (.functionCall {} []))) = some b ∧ b.Stored := by
    intro n
    induction n with
    | zero => exact ⟨_, rfl, trivial⟩
    | succ n ih =>
        obtain ⟨b, hrun, -⟩ := ih
        obtain ⟨b', hstep, hstored, -⟩ := hcall n b hrun
        refine ⟨b', ?_, hstored⟩
        rw [List.replicate_succ', run_append, hrun, Option.bind_some, run_singleton, hstep]
  obtain ⟨b, hrun, hstored⟩ := hgrows 401
  have hroom := started_inRoom (by decide) (Nat.le_refl 10) (Nat.zero_le 6)
  have hle := usage_plainCalls hroom
    (calls_fit hroom (allowed_plainCalls (Codegen.started 10 0) 401) hrun hstored)
  omega
