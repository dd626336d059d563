/-
# Execution of a created function and of its SSA form

An execution goes from block to block as the jumps say, before and after the conversion
(`Executes`).  The instructions of a block see what they see along the path of the blocks that
control came through, so both executions are the same (`Converted.nextBlock_eq`); and that of
a created function whose blocks are well formed is the one of the machine (`agrees_of_executes`).
Together they relate the syntax tree and the SSA form (`FunctionConverted.executesSource`).
-/
import MCompiler.SsaCreated

open FlowGraph

section Execution

variable {V : Type}

/-! ## From block to block -/

section Defs

variable (sem : ValueSemantics V) (ir : Ir)

/-- The block that control goes to behind the block `b`, if this does not leave the function. -/
def nextBlock (σ : PathState V) (b : ℕ) : Option ℕ := do
  let inst ← blockLastInstruction ir b
  match (ir.insts inst).type with
  | .jump => useBlock (ir.operand ⟨inst, 0⟩)
  | .jumpCond =>
      let condition ← operandAt sem ir σ.results inst 2
      useBlock (ir.operand ⟨inst, if sem.isTrue condition then 0 else 1⟩)
  | _ => none

/-- Control comes to the block `b` through the blocks `w`. -/
inductive Executes (entry : ℕ) : List ℕ → ℕ → Prop
  | start : Executes entry [] entry
  | next {w : List ℕ} {b c : ℕ} : Executes entry w b →
      nextBlock sem ir (runPath sem ir (w ++ [b])) b = some c → Executes entry (w ++ [b]) c

/-- Control leaves the function behind `b`. -/
def EndsBehind (w : List ℕ) (b : ℕ) : Prop :=
  nextBlock sem ir (runPath sem ir (w ++ [b])) b = none

end Defs

variable {sem : ValueSemantics V} {ir : Ir} {entry b c i k : ℕ} {w pre post l : List ℕ}
  {σ : PathState V}

theorem cfgEdge_of_operand (hlast : blockLastInstruction ir b = some i)
    (hi : (ir.insts i).type ≠ .phi) (hop : ir.operand ⟨i, k⟩ = some (.block c)) :
    cfgEdge ir b c := mem_blockSuccessors.mpr ⟨⟨i, k⟩, hlast, hi, hop⟩

/-- Control follows the edges of the control flow graph. -/
theorem cfgEdge_of_nextBlock (h : nextBlock sem ir σ b = some c) : cfgEdge ir b c := by
  obtain ⟨i, hlast, h⟩ := Option.bind_eq_some_iff.mp h
  split at h
  · rename_i htype
    exact cfgEdge_of_operand hlast (by rw [htype]; exact InstType.noConfusion)
      (useBlock_eq_some.mp h)
  · rename_i htype
    obtain ⟨condition, -, h⟩ := Option.bind_eq_some_iff.mp h
    exact cfgEdge_of_operand hlast (by rw [htype]; exact InstType.noConfusion)
      (useBlock_eq_some.mp h)
  · cases h

theorem Executes.walk (h : Executes sem ir entry w b) :
    Walk (cfgEdge ir) entry (w ++ [b]) b := by
  induction h with
  | start => exact .root
  | next _ hnext ih => exact .step ih (cfgEdge_of_nextBlock hnext)

/-- Only a jump leads to a block. -/
theorem nextBlock_eq_none (hlast : blockLastInstruction ir b = some i)
    (hi : (ir.insts i).type.isJump = false) : nextBlock sem ir σ b = none := by
  unfold nextBlock
  rw [hlast, Option.bind_eq_bind, Option.bind_some]
  cases htype : (ir.insts i).type with
  | jump | jumpCond =>
      rw [htype] at hi
      cases hi
  | _ => rfl

theorem operand_slot {v : Value} (hk : (ir.insts i).uses[k]? = some (some v)) :
    ir.operand ⟨i, k⟩ = some v := Ir.operand_eq_some.mpr hk

theorem operandAt_slot {v : Value} (hk : (ir.insts i).uses[k]? = some (some v)) :
    operandAt sem ir σ.results i k = valueAt sem ir σ.results v := by
  unfold operandAt
  rw [operand_slot hk]
  rfl

theorem nextBlock_jump (hlast : blockLastInstruction ir b = some i)
    (htype : (ir.insts i).type = .jump) (huses : (ir.insts i).uses = [some (.block c)]) :
    nextBlock sem ir σ b = some c := by
  unfold nextBlock
  rw [hlast, Option.bind_eq_bind, Option.bind_some, htype]
  exact useBlock_eq_some.mpr (operand_slot (by rw [huses]; rfl))

theorem nextBlock_jumpCond {c' : ℕ} {v : Value} {x : V} (hlast : blockLastInstruction ir b = some i)
    (htype : (ir.insts i).type = .jumpCond)
    (huses : (ir.insts i).uses = [some (.block c), some (.block c'), some v])
    (hx : valueAt sem ir σ.results v = some x) :
    nextBlock sem ir σ b = some (if sem.isTrue x then c else c') := by
  have hcond : operandAt sem ir σ.results i 2 = some x := by
    rw [operandAt_slot (by rw [huses]; rfl), hx]
  unfold nextBlock
  rw [hlast, Option.bind_eq_bind, Option.bind_some, htype]
  dsimp only
  rw [hcond, Option.bind_eq_bind, Option.bind_some]
  split
  · exact useBlock_eq_some.mpr (operand_slot (by rw [huses]; rfl))
  · exact useBlock_eq_some.mpr (operand_slot (by rw [huses]; rfl))

/-! ## What a jump sees -/

theorem operandAt_eq (results : ℕ → Option V) (i k : ℕ) :
    operandAt sem ir results i k = ((operandsAt sem ir results i)[k]?).join := by
  unfold operandAt operandsAt Ir.operand
  dsimp only
  rw [List.getElem?_map]
  cases (ir.insts i).uses[k]? with
  | none => rfl
  | some o => rfl

theorem isJump_iff {type : InstType} : type.isJump = true ↔ type = .jump ∨ type = .jumpCond := by
  cases type <;> simp [InstType.isJump]

theorem execInst_jump (hi : (ir.insts i).type.isJump) : execInst sem ir σ i =
    { σ with trace := σ.trace ++ [(i, operandsAt sem ir σ.results i)] } := by
  unfold execInst
  rcases isJump_iff.mp hi with htype | htype <;> rw [htype]

/-- The last entry of the trace. -/
theorem runPath_trace_jump (hblock : ir.blocks b = l ++ [i]) (hi : (ir.insts i).type.isJump) :
    (runPath sem ir (w ++ [b])).trace.getLast? =
      some (i, operandsAt sem ir (runPath sem ir (w ++ [b])).results i) := by
  rw [runPath_concat, hblock, stateAt_concat, execInst_jump hi]
  exact List.getLast?_concat

/-! ## The converted function -/

section Converted

variable {phis : ℕ → List PhiInfo} {doms : Dominators} {r : Renaming} {done : List ℕ}
  {pushed : List PhiOperand} {mid mid' ir' : Ir}

/-- A jump leads to the same block, as it sees the same condition. -/
theorem nextBlock_congr {σ' : PathState V} (hlast : blockLastInstruction ir b = some i)
    (hlast' : blockLastInstruction ir' b = some i) (htype : (ir'.insts i).type = (ir.insts i).type)
    (hops : operandsAt sem ir' σ'.results i = operandsAt sem ir σ.results i)
    (hblocks : ∀ k, useBlock (ir'.operand ⟨i, k⟩) = useBlock (ir.operand ⟨i, k⟩)) :
    nextBlock sem ir' σ' b = nextBlock sem ir σ b := by
  unfold nextBlock
  rw [hlast, hlast']
  simp only [Option.bind_eq_bind, Option.bind_some, htype, operandAt_eq, hops, hblocks]

/-- **Control goes on in the same way.** -/
theorem Converted.nextBlock_eq (h : Converted ir entry phis r done pushed mid mid' ir')
    (hrenamed : RenamedFilling ir entry phis doms r done pushed mid mid')
    (hsuffice : PhisSuffice ir entry phis) (hassigned : LoadsAssigned ir entry)
    (hw : Walk (cfgEdge ir) entry (w ++ [b]) b) :
    nextBlock sem ir' (runPath sem ir' (w ++ [b])) b =
      nextBlock sem ir (runPath sem ir (w ++ [b])) b := by
  have hb : Reachable (cfgEdge ir) entry b := ⟨_, hw⟩
  have hheap := hrenamed.heap
  by_cases hjump : ∃ i, blockLastInstruction ir b = some i ∧ (ir.insts i).type.isJump = true
  · obtain ⟨i, hlast, hi⟩ := hjump
    have hmem : i ∈ ir.blocks b := List.mem_of_getLast? hlast
    have hkept : (ir.insts i).type.isLoadAssign = false := by
      rcases isJump_iff.mp hi with htype | htype <;> rw [htype] <;> rfl
    have hphi : (ir.insts i).type ≠ .phi := by
      rcases isJump_iff.mp hi with htype | htype <;> rw [htype] <;> exact InstType.noConfusion
    obtain ⟨l, hl⟩ := List.getLast?_eq_some_iff.mp hlast
    obtain ⟨phiInsts, -, -, hblocks⟩ := h.blocks_eq hheap hb
    rw [hl, List.filter_append, List.filter_singleton, hkept] at hblocks
    have hlast' : blockLastInstruction ir' b = some i := by
      unfold blockLastInstruction
      rw [hblocks, ← List.append_assoc]
      exact List.getLast?_concat
    have hinst := h.filled.insts_of_mem hheap hmem
    have htype : (ir'.insts i).type = (ir.insts i).type := by rw [h.type, hinst]
    have htrace := h.trace_eq sem (w ++ [b])
    rw [hrenamed.trace_eq hsuffice hassigned hw] at htrace
    have hentry : (runPath sem ir (w ++ [b])).trace.getLast? = _ := runPath_trace_jump hl hi
    rw [← htrace, runPath_trace_jump (by rw [hblocks, ← List.append_assoc]; rfl)
      (by rwa [htype])] at hentry
    refine nextBlock_congr hlast hlast' htype (Prod.ext_iff.mp (Option.some.inj hentry)).2 ?_
    intro k
    have hop : mid.operand ⟨i, k⟩ = ir.operand ⟨i, k⟩ := by
      unfold Ir.operand
      rw [hinst]
    rw [h.operand_eq (by rwa [hinst]), hop]
    cases ir.operand ⟨i, k⟩ with
    | none => rfl
    | some v =>
        cases v with
        | inst j =>
            show useBlock (some (r.value j)) = none
            have hne := h.renamed.value_ne_block j
            cases hv : r.value j with
            | block x => exact absurd hv (hne x)
            | _ => rfl
        | _ => rfl
  · -- without a jump no block follows, and the edges stay
    have hnone : ∀ c, ¬ cfgEdge ir b c := by
      intro c hE
      obtain ⟨⟨i, k⟩, hlast, hphi, hop⟩ := mem_blockSuccessors.mp hE
      have hmem : i ∈ ir.blocks b := List.mem_of_getLast? hlast
      cases hrenamed.form.operand b hb i hmem hphi k _ hop with
      | block x hj => exact hjump ⟨i, hlast, hj⟩
    rw [Option.eq_none_iff_forall_not_mem.mpr fun c hc => hnone c (cfgEdge_of_nextBlock hc)]
    refine Option.eq_none_iff_forall_not_mem.mpr fun c hc => hnone c ?_
    exact (h.cfgEdge_iff hheap hb c).mpr (cfgEdge_of_nextBlock hc)

/-- The two executions are the same: they come to the same blocks, and there the instructions
other than phis, loads and assigns have had the same operands. -/
def SameExecution (sem : ValueSemantics V) (ir ir' : Ir) (entry : ℕ) : Prop :=
  ∀ w b, (Executes sem ir' entry w b ↔ Executes sem ir entry w b) ∧
    (Executes sem ir entry w b →
      (runPath sem ir' (w ++ [b])).trace = (runPath sem ir (w ++ [b])).trace ∧
      (EndsBehind sem ir' w b ↔ EndsBehind sem ir w b))

/-- **The execution stays.** -/
theorem Converted.sameExecution (h : Converted ir entry phis r done pushed mid mid' ir')
    (hrenamed : RenamedFilling ir entry phis doms r done pushed mid mid')
    (hsuffice : PhisSuffice ir entry phis) (hassigned : LoadsAssigned ir entry) :
    SameExecution sem ir ir' entry := by
  have hnext : ∀ {w b}, Executes sem ir entry w b →
      nextBlock sem ir' (runPath sem ir' (w ++ [b])) b =
        nextBlock sem ir (runPath sem ir (w ++ [b])) b :=
    fun hexec => h.nextBlock_eq hrenamed hsuffice hassigned hexec.walk
  intro w b
  refine ⟨⟨fun hexec => ?_, fun hexec => ?_⟩, fun hexec => ⟨?_, ?_⟩⟩
  · induction hexec with
    | start => exact .start
    | next _ hc ih =>
        rw [hnext ih] at hc
        exact .next ih hc
  · induction hexec with
    | start => exact .start
    | next hbefore hc ih =>
        rw [← hnext hbefore] at hc
        exact .next ih hc
  · rw [h.trace_eq sem, hrenamed.trace_eq hsuffice hassigned hexec.walk]
  · unfold EndsBehind
    rw [hnext hexec]

end Converted

/-! ## The machine -/

/-- What the path defines, the machine has. -/
structure Agrees (σ : PathState V) (c : IrConfig V) : Prop where
  results : ∀ i v, σ.results i = some v → c.results i = v
  regs : ∀ a v, σ.regs a = some v → c.state.vars a = v

section Machine

variable {d d' : IrConfig V} {v : Value} {x y : V}

theorem Agrees.start (entry : ℕ) (results vars : ℕ → V) :
    Agrees pathStart (irStart entry results vars) where
  results _ _ h := by cases h
  regs _ _ h := by cases h

theorem Agrees.value (h : Agrees σ d) (hx : valueAt sem ir σ.results v = some x)
    (hy : irOperand sem ir d.results v = some y) : x = y := by
  cases v with
  | inst i =>
      obtain rfl := Option.some.inj hy
      exact (h.results i x hx).symm
  | const c => exact Option.some.inj (hx.symm.trans hy)
  | block b => cases hx

/-- What the machine does at the instruction `i`. -/
inductive MachineStep (sem : ValueSemantics V) (ir : Ir) (d : IrConfig V) (i : ℕ) :
    InstType → List (Option Value) → IrStep V → Prop
  | load (a : ℕ) : MachineStep sem ir d i (.loadVar a) [] (.next { d with
      pos := d.pos + 1, results := Function.update d.results i (d.state.vars a) })
  | assign (a : ℕ) {v : Value} {x : V} : irOperand sem ir d.results v = some x →
      MachineStep sem ir d i (.assignVar a) [some v]
        (.next { d with pos := d.pos + 1, state := d.state.assign a x })
  | binary (op : BinaryOps) {l r : Value} {x y : V} : irOperand sem ir d.results l = some x →
      irOperand sem ir d.results r = some y →
      MachineStep sem ir d i (.binary op) [some l, some r] (.next { d with
        pos := d.pos + 1, results := Function.update d.results i (sem.binary op x y) })
  | jump (b : ℕ) : MachineStep sem ir d i .jump [some (.block b)]
      (.next { d with block := b, pos := 0 })
  | jumpCond (b c : ℕ) {v : Value} {x : V} : irOperand sem ir d.results v = some x →
      MachineStep sem ir d i .jumpCond [some (.block b), some (.block c), some v]
        (.next { d with block := if sem.isTrue x then b else c, pos := 0 })
  | ret : MachineStep sem ir d i .ret [] .ended

theorem machineStep (hpos : (ir.blocks d.block)[d.pos]? = some i)
    (hstuck : irStep sem ir d ≠ .stuck) :
    MachineStep sem ir d i (ir.insts i).type (ir.insts i).uses (irStep sem ir d) := by
  unfold irStep at hstuck ⊢
  rw [hpos] at hstuck ⊢
  dsimp only at hstuck ⊢
  generalize (ir.insts i).type = type at hstuck ⊢
  generalize (ir.insts i).uses = uses at hstuck ⊢
  split at hstuck
  · exact .load _
  · split at hstuck
    · rename_i hv
      exact .assign _ hv
    · exact absurd rfl hstuck
  · split at hstuck
    · rename_i hl hr
      exact .binary _ hl hr
    · exact absurd rfl hstuck
  · exact .jump _
  · split at hstuck
    · rename_i hv
      exact .jumpCond _ _ hv
    · exact absurd rfl hstuck
  · exact .ret
  · exact absurd rfl hstuck

/-- A result that the machine has computed. -/
theorem Agrees.result (h : Agrees σ d) {o : Option V} (ho : ∀ x, o = some x → x = y) (pos : ℕ)
    (trace : List (ℕ × List (Option V))) :
    Agrees { σ with results := Function.update σ.results i o, trace := trace }
      { d with pos := pos, results := Function.update d.results i y } where
  results j v hv := by
    dsimp only at hv ⊢
    by_cases hj : j = i
    · subst hj
      rw [Function.update_self] at hv ⊢
      exact (ho v hv).symm
    · rw [Function.update_of_ne hj] at hv ⊢
      exact h.results j v hv
  regs := h.regs

/-- **An instruction that cannot jump.** -/
theorem Agrees.step (h : Agrees σ d) (hpos : (ir.blocks d.block)[d.pos]? = some i)
    (hi : (ir.insts i).type.isTerminator = false) (hstuck : irStep sem ir d ≠ .stuck) :
    ∃ d', irStep sem ir d = .next d' ∧ d'.block = d.block ∧ d'.pos = d.pos + 1 ∧
      Agrees (execInst sem ir σ i) d' := by
  have hmachine := machineStep hpos hstuck
  unfold execInst
  generalize htype : (ir.insts i).type = type at hmachine hi ⊢
  generalize huses : (ir.insts i).uses = uses at hmachine
  generalize irStep sem ir d = next at hmachine
  cases hmachine with
  | load a => exact ⟨_, rfl, rfl, rfl, h.result (fun x hx => (h.regs a x hx).symm) _ _⟩
  | @assign a v x hv =>
      refine ⟨_, rfl, rfl, rfl, h.results, fun b y hy => ?_⟩
      dsimp only [Execution.assign] at hy ⊢
      by_cases hb : b = a
      · subst hb
        rw [Function.update_self, operandAt_slot (by rw [huses]; rfl)] at hy
        rw [Function.update_self]
        exact (h.value hy hv).symm
      · rw [Function.update_of_ne hb] at hy ⊢
        exact h.regs b y hy
  | @binary op l r x y hl hr =>
      refine ⟨_, rfl, rfl, rfl, h.result (fun z hz => ?_) _ _⟩
      obtain ⟨x', hx', hz⟩ := Option.bind_eq_some_iff.mp hz
      obtain ⟨y', hy', hz⟩ := Option.bind_eq_some_iff.mp hz
      rw [operandAt_slot (by rw [huses]; rfl)] at hx' hy'
      obtain rfl := h.value hx' hl
      obtain rfl := h.value hy' hr
      exact (Option.some.inj hz).symm
  | jump b | jumpCond b c hv | ret => cases hi

/-- The machine never comes to an instruction without a meaning. -/
def NeverStuck (sem : ValueSemantics V) (ir : Ir) (d : IrConfig V) : Prop :=
  ∀ m d', IrSteps sem ir d m d' → irStep sem ir d' ≠ .stuck

theorem NeverStuck.steps {m : ℕ} (h : NeverStuck sem ir d) (hsteps : IrSteps sem ir d m d') :
    NeverStuck sem ir d' := fun _ _ hsteps' => h _ _ (hsteps.trans hsteps')

/-- **Instructions that cannot jump.** -/
theorem Agrees.straight (h : Agrees σ d) (hstuck : NeverStuck sem ir d) (pre post : List ℕ)
    (hblock : ir.blocks d.block = pre ++ l ++ post) (hpos : d.pos = pre.length)
    (hl : ∀ i ∈ l, (ir.insts i).type.isTerminator = false) :
    ∃ d', IrSteps sem ir d l.length d' ∧ d'.block = d.block ∧ d'.pos = (pre ++ l).length ∧
      Agrees (l.foldl (execInst sem ir) σ) d' := by
  induction l generalizing pre σ d with
  | nil => exact ⟨d, .refl d, rfl, by rw [hpos, List.append_nil], h⟩
  | cons i l ih =>
      have hget : (ir.blocks d.block)[d.pos]? = some i := by
        rw [hblock, hpos, List.append_assoc]
        simp
      obtain ⟨d₁, hnext, hblock₁, hpos₁, h₁⟩ :=
        h.step hget (hl i List.mem_cons_self) (hstuck 0 d (.refl d))
      obtain ⟨d', hsteps, hblock', hpos', h'⟩ := ih h₁ (hstuck.steps (.one hnext)) (pre ++ [i])
        (by rw [hblock₁, hblock]; simp) (by rw [hpos₁, hpos]; simp)
        fun j hj => hl j (List.mem_cons_of_mem _ hj)
      refine ⟨d', .head hnext hsteps, hblock'.trans hblock₁, ?_, h'⟩
      rw [hpos', List.append_assoc]
      rfl

/-- The instructions of the block `b` that can jump are last. -/
def JumpsAtEnd (ir : Ir) (b : ℕ) : Prop := ∀ k i, (ir.blocks b)[k]? = some i →
  (ir.insts i).type.isTerminator = true → k + 1 = (ir.blocks b).length

theorem JumpsAtEnd.straight (h : JumpsAtEnd ir b) (hblock : ir.blocks b = l ++ [i]) :
    ∀ j ∈ l, (ir.insts j).type.isTerminator = false := by
  intro j hj
  rw [Bool.eq_false_iff]
  intro hterm
  obtain ⟨k, hk⟩ := List.mem_iff_getElem?.mp hj
  have hlt : k < l.length := (List.getElem?_eq_some_iff.mp hk).1
  have hget : (ir.blocks b)[k]? = some j := by rw [hblock, List.getElem?_append_left hlt, hk]
  have hlen := h k j hget hterm
  rw [hblock, List.length_append, List.length_singleton] at hlen
  omega

/-- How the machine leaves a block that it has come to through the blocks `w`. -/
def Leaves (sem : ValueSemantics V) (ir : Ir) (w : List ℕ) (b : ℕ) (d : IrConfig V) : Prop :=
  ∃ m d', IrSteps sem ir d m d' ∧
    ((irStep sem ir d' = .ended ∧ EndsBehind sem ir w b) ∨
      ∃ d'' c, irStep sem ir d' = .next d'' ∧
        nextBlock sem ir (runPath sem ir (w ++ [b])) b = some c ∧ d''.block = c ∧ d''.pos = 0 ∧
        Agrees (runPath sem ir (w ++ [b])) d'')

/-- **A block.** -/
theorem Agrees.leaves (h : Agrees (runPath sem ir w) d) (hstuck : NeverStuck sem ir d)
    (hb : d.block = b) (hpos : d.pos = 0) (hphi : ∀ i ∈ ir.blocks b, (ir.insts i).type ≠ .phi)
    (hend : JumpsAtEnd ir b)
    (hdefined : ∀ i v, blockLastInstruction ir b = some i → (ir.insts i).type.isJump = true →
      ir.operand ⟨i, 2⟩ = some v → (∀ x, v ≠ .block x) →
      valueAt sem ir (runPath sem ir (w ++ [b])).results v ≠ none) :
    Leaves sem ir w b d := by
  subst hb
  -- control comes to a block without phis
  have henter : Agrees (enterBlock sem ir (runPath sem ir w) d.block) d := by
    refine ⟨fun i v hv => h.results i v ?_, h.regs⟩
    rwa [enterBlock_results fun hi => hphi i hi.1 hi.2] at hv
  by_cases hlast : ∃ l i, ir.blocks d.block = l ++ [i] ∧ (ir.insts i).type.isTerminator = true
  · obtain ⟨l, i, hblock, hi⟩ := hlast
    have hlast : blockLastInstruction ir d.block = some i := by
      unfold blockLastInstruction
      rw [hblock, List.getLast?_concat]
    obtain ⟨d', hsteps, hblock', hpos', h'⟩ := henter.straight hstuck [] [i] hblock hpos
      (hend.straight hblock)
    have hget : (ir.blocks d'.block)[d'.pos]? = some i := by
      rw [hblock', hblock, hpos', List.nil_append]
      simp
    have hmachine := machineStep hget (hstuck _ _ hsteps)
    refine ⟨_, d', hsteps, ?_⟩
    have hjumped : (ir.insts i).type.isJump = true →
        Agrees (runPath sem ir (w ++ [d.block])) d' := by
      intro hjump
      rw [runPath_concat, hblock, stateAt_concat, execInst_jump hjump]
      exact ⟨h'.results, h'.regs⟩
    have hcondition := hdefined i
    generalize htype : (ir.insts i).type = type at hmachine hi hjumped hcondition
    generalize huses : (ir.insts i).uses = uses at hmachine
    generalize hnext : irStep sem ir d' = next at hmachine
    cases hmachine with
    | load a | assign a hv | binary op hl hr => cases hi
    | jump c =>
        have h'' := hjumped rfl
        exact .inr ⟨_, c, rfl, nextBlock_jump hlast htype huses, rfl, rfl, ⟨h''.results, h''.regs⟩⟩
    | @jumpCond c c' v x hv =>
        have h'' := hjumped rfl
        have hop : ir.operand ⟨i, 2⟩ = some v := operand_slot (by rw [huses]; rfl)
        obtain ⟨y, hy⟩ := Option.ne_none_iff_exists'.mp (hcondition v hlast rfl hop fun z hz => by
          rw [hz] at hv
          cases hv)
        obtain rfl := h''.value hy hv
        exact .inr ⟨_, _, rfl, nextBlock_jumpCond hlast htype huses hy, rfl, rfl,
          ⟨h''.results, h''.regs⟩⟩
    | ret => exact .inl ⟨rfl, nextBlock_eq_none hlast (by rw [htype]; rfl)⟩
  · -- the execution runs off the end of the block
    have hall : ∀ i ∈ ir.blocks d.block, (ir.insts i).type.isTerminator = false := by
      intro i hi
      rcases List.eq_nil_or_concat (ir.blocks d.block) with hnil | ⟨l, j, hblock⟩
      · rw [hnil] at hi
        cases hi
      · rw [List.concat_eq_append] at hblock
        have hj : (ir.insts j).type.isTerminator = false := by
          rw [Bool.eq_false_iff]
          exact fun hj => hlast ⟨l, j, hblock, hj⟩
        rw [hblock, List.mem_append, List.mem_singleton] at hi
        rcases hi with hi | rfl
        · exact hend.straight hblock i hi
        · exact hj
    obtain ⟨d', hsteps, hblock', hpos', -⟩ := henter.straight hstuck [] []
      (by rw [List.nil_append, List.append_nil]) hpos hall
    refine ⟨_, d', hsteps, .inl ⟨?_, ?_⟩⟩
    · unfold irStep
      rw [hblock', hpos', List.nil_append, List.getElem?_eq_none (Nat.le_refl _)]
    · cases hi : blockLastInstruction ir d.block with
      | none =>
          unfold EndsBehind nextBlock
          rw [hi]
          rfl
      | some i =>
          have hterm := hall i (List.mem_of_getLast? hi)
          refine nextBlock_eq_none hi ?_
          rw [Bool.eq_false_iff]
          intro hjump
          rcases isJump_iff.mp hjump with htype | htype <;> rw [htype] at hterm <;> cases hterm

end Machine

section Runs

variable {results vars : ℕ → V} (hheap : HeapOk ir) (hform : SsaFunction ir entry)
  (hfree : PhiFree ir entry) (hbin : BinaryOperands ir entry) (hassigned : LoadsAssigned ir entry)
  (hend : ∀ b, Reachable (cfgEdge ir) entry b → JumpsAtEnd ir b)
  (hstuck : NeverStuck sem ir (irStart entry results vars))
include hheap hform hfree hbin hassigned hend hstuck

/-- **One block of an execution.** -/
theorem Executes.leaves {d : IrConfig V} {m : ℕ} (h : Executes sem ir entry w b)
    (hsteps : IrSteps sem ir (irStart entry results vars) m d) (hb : d.block = b)
    (hpos : d.pos = 0) (hagrees : Agrees (runPath sem ir w) d) : Leaves sem ir w b d := by
  have hreach : Reachable (cfgEdge ir) entry b := ⟨_, h.walk⟩
  refine hagrees.leaves (hstuck.steps hsteps) hb hpos (hfree b hreach) (hend b hreach) ?_
  intro i v hlast hjump hop hv
  obtain ⟨l, hblock⟩ := List.getLast?_eq_some_iff.mp hlast
  have hdefined : PathDefined ir entry w b l (stateAt sem ir w b l) :=
    pathDefined hheap hform hfree hbin hassigned h.walk hblock
  rw [runPath_concat, hblock, stateAt_concat, execInst_jump hjump]
  exact hdefined.valueAt_ne_none hheap hform hfree hreach hblock hop hv

/-- **An execution is one of the machine.** -/
theorem agrees_of_executes (h : Executes sem ir entry w b) :
    ∃ m d, w.length ≤ m ∧ IrSteps sem ir (irStart entry results vars) m d ∧ d.block = b ∧
      d.pos = 0 ∧ Agrees (runPath sem ir w) d := by
  induction h with
  | start => exact ⟨0, _, Nat.le_refl 0, .refl _, rfl, rfl, .start entry results vars⟩
  | @next w b c hexec hnext ih =>
      obtain ⟨m, d, hm, hsteps, hb, hpos, hagrees⟩ := ih
      obtain ⟨m', d', hsteps', hleave⟩ :=
        hexec.leaves hheap hform hfree hbin hassigned hend hstuck hsteps hb hpos hagrees
      rcases hleave with ⟨-, hends⟩ | ⟨d'', c', hstep, hnext', hc, hpos'', hagrees'⟩
      · rw [EndsBehind, hnext] at hends
        cases hends
      · obtain rfl : c' = c := Option.some.inj (hnext'.symm.trans hnext)
        refine ⟨m + (m' + 1), d'', ?_, hsteps.trans (hsteps'.trans (.one hstep)), hc, hpos'',
          hagrees'⟩
        rw [List.length_append, List.length_singleton]
        omega

/-- **An execution ends if and only if that of the machine does.** -/
theorem executes_ends_iff : (∃ w b, Executes sem ir entry w b ∧ EndsBehind sem ir w b) ↔
    ∃ k, irStep sem ir (irRun sem ir k (irStart entry results vars)) = .ended := by
  constructor
  · rintro ⟨w, b, hexec, hends⟩
    obtain ⟨m, d, -, hsteps, hb, hpos, hagrees⟩ :=
      agrees_of_executes hheap hform hfree hbin hassigned hend hstuck hexec
    obtain ⟨m', d', hsteps', hleave⟩ :=
      hexec.leaves hheap hform hfree hbin hassigned hend hstuck hsteps hb hpos hagrees
    rcases hleave with ⟨hended, -⟩ | ⟨d'', c, -, hnext, -⟩
    · refine ⟨m + m', ?_⟩
      rw [(hsteps.trans hsteps').run_of_ended hended (Nat.le_refl _)]
      exact hended
    · rw [EndsBehind, hnext] at hends
      cases hends
  · rintro ⟨k, hended⟩
    by_contra hnever
    -- then the execution goes on for longer than the machine
    have hlong : ∀ n, ∃ w b, Executes sem ir entry w b ∧ w.length = n := by
      intro n
      induction n with
      | zero => exact ⟨[], entry, .start, rfl⟩
      | succ n ih =>
          obtain ⟨w, b, hexec, rfl⟩ := ih
          cases hnext : nextBlock sem ir (runPath sem ir (w ++ [b])) b with
          | none => exact absurd ⟨w, b, hexec, hnext⟩ hnever
          | some c => exact ⟨w ++ [b], c, .next hexec hnext, by simp⟩
    obtain ⟨w, b, hexec, hlen⟩ := hlong (k + 1)
    obtain ⟨m, d, hm, hsteps, -⟩ :=
      agrees_of_executes hheap hform hfree hbin hassigned hend hstuck hexec
    obtain ⟨d', hstep⟩ := hsteps.next_of_lt (show k < m by omega)
    rw [hended] at hstep
    cases hstep

end Runs

/-! ## Created functions -/

/-- Where no block is broken, no loop is left too early. -/
theorem exec_ne_stopped_of_ending (fuel : ℕ) (scopes : Scopes) (n : ℕ) (ss : Statements)
    (st : Execution V) (hend : ss.ending ≠ .broken) :
    (ss.exec sem Statements.branches fuel scopes n st).1 ≠ .stopped := by
  have hfollow : ∀ {r : Outcome × Execution V} {f : Execution V → Outcome × Execution V},
      r.1 ≠ .stopped → (∀ st, (f st).1 ≠ .stopped) → (followedBy r f).1 ≠ .stopped := by
    intro r f hr hf
    obtain ⟨o, st⟩ := r
    cases o with
    | normal => exact hf st
    | _ => exact hr
  induction fuel generalizing scopes n ss st with
  | zero => exact Outcome.noConfusion
  | succ fuel ih =>
      cases ss with
      | done => exact Outcome.noConfusion
      | assign varName value rest => exact ih _ _ _ _ hend
      | declare dataType op varName value rest => exact ih _ _ _ _ hend
      | ifThen condition body rest =>
          have hbody : body.ending = .unended := by
            by_contra hne
            exact hend (if_neg hne)
          have hrest : rest.ending ≠ .broken := by
            rwa [Statements.ending, if_pos hbody] at hend
          rw [exec_ifThen]
          split
          · exact hfollow (ih _ _ _ _ (by rw [hbody]; exact Ending.noConfusion))
              fun st => ih _ _ _ _ hrest
          · exact ih _ _ _ _ hrest
      | whileDo condition body rest =>
          have hbody : body.branches = false ∧ body.ending = .unended := by
            by_contra hne
            exact hend (if_neg hne)
          have hrest : rest.ending ≠ .broken := by
            rwa [Statements.ending, if_pos hbody] at hend
          rw [exec_whileDo, hbody.1]
          split
          · exact hfollow (ih _ _ _ _ (by rw [hbody.2]; exact Ending.noConfusion))
              fun st => ih _ _ _ _ hend
          · exact ih _ _ _ _ hrest
      | ret rest => exact Outcome.noConfusion
      | other node hignored rest => exact ih _ _ _ _ hend

theorem stopsAtTheEnd_of_ending {body : Statements} (hend : body.ending ≠ .broken) (n : ℕ)
    (vars : ℕ → V) : StopsAtTheEnd sem body n vars := by
  intro fuel st hstop
  exact absurd (congrArg Prod.fst hstop) (exec_ne_stopped_of_ending _ _ _ _ _ hend)

theorem Follows.neverStuck {d : IrConfig V} {run : ℕ → Outcome × Execution V}
    (h : Follows sem ir d run) : NeverStuck sem ir d := by
  intro m d' hsteps
  have hstuck := h.not_stuck (m + 0)
  rwa [hsteps.run_eq 0] at hstuck

/-- The blocks of a created function. -/
theorem created_jumpsAtEnd {c inner : IrCreator} {body : Statements} (hheap : HeapClosed c.ctx)
    (h : createStatements c.enterBlock body.toAst = some inner) (hend : body.ending ≠ .broken)
    {b : ℕ} (hb : Reachable (cfgEdge inner.ctx) c.ctx.blockCount b) : JumpsAtEnd inner.ctx b :=
  ((blocksWellFormed_iff h).mpr hend b (created_reachable hheap h hb)
    (created_lt hheap h hb)).1

end Execution

/-- What the code `ir` created for a function and its SSA form `ir'` do. -/
def ExecutesSource (ir ir' : Ir) (entry : ℕ) (doms : Dominators) (body : Statements) (n : ℕ) : Prop :=
  ∀ (V : Type) (sem : ValueSemantics V) (results vars : ℕ → V),
    SameBehaviour sem ir entry body n results vars ∧
    (∀ w b, Executes sem ir entry w b → ∃ m d, IrSteps sem ir (irStart entry results vars) m d ∧
      d.block = b ∧ d.pos = 0 ∧ Agrees (runPath sem ir w) d) ∧
    (FirstPhisSuffice ir entry doms → SameExecution sem ir ir' entry ∧
      ((∃ w b, Executes sem ir' entry w b ∧ EndsBehind sem ir' w b) ↔
        ∃ fuel, (body.interpret sem n vars fuel).1 ≠ .cut))

theorem FunctionConverted.executesSource {creator inner : IrCreator}
    (hheap : HeapClosed creator.ctx) (hinfo : creator.blockInfo = []) {name : Range}
    {returnType : TokenType} {body : Statements}
    (hinner : createStatements creator.enterBlock body.toAst = some inner)
    (hscoped : body.WellScoped [fun _ => none] creator.regCount)
    (hregs : creator.regCount + body.declarations ≤ 2 ^ 32) (hend : body.ending ≠ .broken)
    {doms : Dominators} {df : DomFrontiers} {ir' : Ir}
    (h : FunctionConverted creator (functionAst name returnType body) inner.ctx
      creator.ctx.blockCount doms df ir') :
    ExecutesSource inner.ctx ir' creator.ctx.blockCount doms body creator.regCount := by
  intro V sem results vars
  have hheapOk := (created_heap hheap hinner).toHeapOk
  have hform := created_ssaFunction hheap hinner hinfo hregs
  have hfree := (createdForm hheap hinner).phi
  have hassigned := (created_loadsDominated hheap hinner hinfo hscoped).assigned
  have hfollows : Follows sem inner.ctx (irStart creator.ctx.blockCount results vars)
      (body.interpretUntil sem creator.regCount vars) := by
    obtain ⟨creator', entry, hcreate, hfollows⟩ :=
      irCreatorCreateFunction_follows sem hinfo name returnType hscoped results vars
    obtain ⟨creator'', hcreate', hctx⟩ := h.created
    cases hcreate.symm.trans hcreate'
    rwa [← hctx]
  have hsame := (sameBehaviour_iff hfollows).mpr (stopsAtTheEnd_of_ending hend _ _)
  have hmachine := executes_ends_iff hheapOk hform hfree (created_binaryOperands hheap hinner)
    hassigned (fun b hb => created_jumpsAtEnd hheap hinner hend hb) hfollows.neverStuck
  refine ⟨hsame, fun w b hexec => ?_, fun hfirst => ?_⟩
  · obtain ⟨m, d, -, hd⟩ := agrees_of_executes hheapOk hform hfree
      (created_binaryOperands hheap hinner) hassigned
      (fun b hb => created_jumpsAtEnd hheap hinner hend hb) hfollows.neverStuck hexec
    exact ⟨m, d, hd⟩
  · obtain ⟨fuel, hrun⟩ := h.renamed
    obtain ⟨_, _, _, _, _, _, _, hconverted, hrenamed, hsuffice⟩ :=
      exists_filling hheapOk h.correctDoms hform hfree h.correctFrontiers hrun
    have hexecution : SameExecution sem inner.ctx ir' creator.ctx.blockCount :=
      hconverted.sameExecution hrenamed (hsuffice hfirst) hassigned
    refine ⟨hexecution, ?_⟩
    rw [hsame.ends_iff, ← hmachine]
    constructor
    · rintro ⟨w, b, hexec, hends⟩
      have hexec' := (hexecution w b).1.mp hexec
      exact ⟨w, b, hexec', ((hexecution w b).2 hexec').2.mp hends⟩
    · rintro ⟨w, b, hexec, hends⟩
      exact ⟨w, b, (hexecution w b).1.mpr hexec, ((hexecution w b).2 hexec).2.mpr hends⟩
