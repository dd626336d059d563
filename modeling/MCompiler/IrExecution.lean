/-
# Execution of the intermediate representation before SSA conversion

The instructions of a block are executed in order until a jump, a conditional jump or a
return; an execution that runs off the end of a block ends there.  `load_var` and
`assign_var` read and write the numbered register, and the assignments are recorded.
-/
import MCompiler.StructuredProgram

section Machine

variable {V : Type}

/-- A state: the next instruction, the results of instructions, and the registers with
the assignments so far. -/
structure IrConfig (V : Type) where
  block : ℕ
  pos : ℕ
  results : ℕ → V
  state : Execution V

/-- What a step leads to: the execution goes on, it has ended, or the instruction makes
no sense. -/
inductive IrStep (V : Type) where
  | next (c : IrConfig V)
  | ended
  | stuck

variable (sem : ValueSemantics V) (ir : Ir)

/-- The value of an operand. -/
def irOperand (results : ℕ → V) : Value → Option V
  | .inst i => some (results i)
  | .const c => some (sem.number (ir.consts c))
  | .block _ => none

/-- One instruction. -/
def irStep (c : IrConfig V) : IrStep V :=
  match (ir.blocks c.block)[c.pos]? with
  | none => .ended
  | some i =>
      match (ir.insts i).type, (ir.insts i).uses with
      | .loadVar rId, [] =>
          .next { c with pos := c.pos + 1, results := Function.update c.results i (c.state.vars rId) }
      | .assignVar rId, [some var] =>
          match irOperand sem ir c.results var with
          | some v => .next { c with pos := c.pos + 1, state := c.state.assign rId v }
          | none => .stuck
      | .binary op, [some left, some right] =>
          match irOperand sem ir c.results left, irOperand sem ir c.results right with
          | some l, some r =>
              .next { c with
                pos := c.pos + 1, results := Function.update c.results i (sem.binary op l r) }
          | _, _ => .stuck
      | .jump, [some (.block b)] => .next { c with block := b, pos := 0 }
      | .jumpCond, [some (.block a), some (.block b), some cond] =>
          match irOperand sem ir c.results cond with
          | some v => .next { c with block := if sem.isTrue v then a else b, pos := 0 }
          | none => .stuck
      | .ret, [] => .ended
      | _, _ => .stuck

/-- The state after `k` steps, or where the execution ended before. -/
def irRun : ℕ → IrConfig V → IrConfig V
  | 0, c => c
  | k + 1, c =>
      match irStep sem ir c with
      | .next c' => irRun k c'
      | _ => c

/-- The start of a function: its entry block, with arbitrary registers. -/
def irStart (entry : ℕ) (results vars : ℕ → V) : IrConfig V := ⟨entry, 0, results, ⟨vars, []⟩⟩

/-- `m` steps lead from one state to another. -/
inductive IrSteps : IrConfig V → ℕ → IrConfig V → Prop
  | refl (c : IrConfig V) : IrSteps c 0 c
  | head {c c' c'' : IrConfig V} {m : ℕ} :
      irStep sem ir c = .next c' → IrSteps c' m c'' → IrSteps c (m + 1) c''

variable {sem ir}

theorem IrSteps.trans {c c' c'' : IrConfig V} {m m' : ℕ} (h : IrSteps sem ir c m c')
    (h' : IrSteps sem ir c' m' c'') : IrSteps sem ir c (m + m') c'' := by
  induction h with
  | refl => rwa [Nat.zero_add]
  | head hstep _ ih =>
      rw [Nat.add_right_comm]
      exact .head hstep (ih h')

theorem IrSteps.one {c c' : IrConfig V} (h : irStep sem ir c = .next c') :
    IrSteps sem ir c 1 c' := .head h (.refl c')

theorem IrSteps.run_eq {c c' : IrConfig V} {m : ℕ} (h : IrSteps sem ir c m c') (k : ℕ) :
    irRun sem ir (m + k) c = irRun sem ir k c' := by
  induction h with
  | refl => rw [Nat.zero_add]
  | head hstep _ ih =>
      rw [Nat.add_right_comm, irRun, hstep]
      exact ih

/-- An execution that has ended stays where it is. -/
theorem irRun_of_ended {c : IrConfig V} (h : irStep sem ir c = .ended) (k : ℕ) :
    irRun sem ir k c = c := by
  cases k with
  | zero => rfl
  | succ k => rw [irRun, h]

/-- A step only adds to the assignments. -/
theorem irStep_trace {c c' : IrConfig V} (h : irStep sem ir c = .next c') :
    c.state.trace <+: c'.state.trace := by
  unfold irStep at h
  split at h
  · cases h
  · split at h
    · cases h
      exact List.prefix_refl _
    · split at h
      · cases h
        exact List.prefix_append _ _
      · cases h
    · split at h
      · cases h
        exact List.prefix_refl _
      · cases h
    · cases h
      exact List.prefix_refl _
    · split at h
      · cases h
        exact List.prefix_refl _
      · cases h
    · cases h
    · cases h

theorem IrSteps.trace_le {c c' : IrConfig V} {m : ℕ} (h : IrSteps sem ir c m c') :
    c.state.trace <+: c'.state.trace := by
  induction h with
  | refl => exact List.prefix_refl _
  | head hstep _ ih => exact (irStep_trace hstep).trans ih

/-- A run is a number of steps, all of them or up to where there is no next one. -/
theorem exists_irSteps (k : ℕ) (c : IrConfig V) :
    ∃ m ≤ k, IrSteps sem ir c m (irRun sem ir k c) := by
  induction k generalizing c with
  | zero => exact ⟨0, Nat.le_refl 0, .refl c⟩
  | succ k ih =>
      rw [irRun]
      split
      · rename_i c' hstep
        obtain ⟨m, hm, hsteps⟩ := ih c'
        exact ⟨m + 1, Nat.succ_le_succ hm, .head hstep hsteps⟩
      · exact ⟨0, Nat.zero_le _, .refl c⟩

/-- More steps only add to the assignments. -/
theorem irRun_trace_mono {k k' : ℕ} (hk : k ≤ k') (c : IrConfig V) :
    (irRun sem ir k c).state.trace <+: (irRun sem ir k' c).state.trace := by
  induction k generalizing k' c with
  | zero =>
      obtain ⟨m, -, hsteps⟩ : ∃ m ≤ k', IrSteps sem ir c m (irRun sem ir k' c) :=
        exists_irSteps k' c
      exact hsteps.trace_le
  | succ k ih =>
      obtain ⟨k', rfl⟩ : ∃ j, k' = j + 1 := ⟨k' - 1, by omega⟩
      rw [irRun, irRun]
      split
      · exact ih (by omega) _
      · exact List.prefix_refl _

end Machine
