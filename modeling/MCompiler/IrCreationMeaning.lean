/-
# IR creation and the meaning of programs

`irCreatorCreateFunction_preserves_iff` : executing the code of a function does what the
reference interpretation does exactly if the interpretation that stops when it has first
completed the body of a `while` with branches has not stopped too early.  There the code
has no jump back to the head of the loop: `create_statement` inserts it into the first
block of the body and not into the last one.
-/
import MCompiler.IrCreationCode

/-! ## More steps of the interpreter -/

section Interpreter

variable {V : Type} {sem : ValueSemantics V}

/-- The result is the same, or the first one was left by `o` earlier. -/
def Refines (o : Outcome) (r r' : Outcome × Execution V) : Prop :=
  r = r' ∨ r.1 = o ∧ r.2.trace <+: r'.2.trace

theorem Refines.trace_le {o : Outcome} {r r' : Outcome × Execution V} (h : Refines o r r') :
    r.2.trace <+: r'.2.trace := by
  rcases h with rfl | ⟨-, h⟩
  · exact List.prefix_refl _
  · exact h

/-- What follows completed statements. -/
def followedBy (r : Outcome × Execution V) (f : Execution V → Outcome × Execution V) :
    Outcome × Execution V :=
  match r with
  | (.normal, st) => f st
  | r => r

theorem followedBy_of_ne {r : Outcome × Execution V} (h : r.1 ≠ .normal)
    (f : Execution V → Outcome × Execution V) : followedBy r f = r := by
  obtain ⟨o, st⟩ := r
  cases o with
  | normal => exact absurd rfl h
  | _ => rfl

theorem trace_followedBy {r : Outcome × Execution V} {f : Execution V → Outcome × Execution V}
    (hf : ∀ st, st.trace <+: (f st).2.trace) : r.2.trace <+: (followedBy r f).2.trace := by
  obtain ⟨o, st⟩ := r
  cases o with
  | normal => exact hf st
  | _ => exact List.prefix_refl _

theorem Refines.followedBy {o : Outcome} (ho : o ≠ .normal) {r r' : Outcome × Execution V}
    {f f' : Execution V → Outcome × Execution V} (h : Refines o r r')
    (hf : ∀ st, Refines o (f st) (f' st)) (htrace : ∀ st, st.trace <+: (f' st).2.trace) :
    Refines o (followedBy r f) (followedBy r' f') := by
  rcases h with rfl | ⟨hr, hprefix⟩
  · obtain ⟨o', st⟩ := r
    cases o' with
    | normal => exact hf st
    | _ => exact .inl rfl
  · rw [followedBy_of_ne (hr ▸ ho)]
    exact .inr ⟨hr, hprefix.trans (trace_followedBy htrace)⟩

theorem exec_ifThen (quits : Statements → Bool) (fuel : ℕ) (scopes : Scopes) (n : ℕ)
    (condition : Expression) (body rest : Statements) (st : Execution V) :
    (Statements.ifThen condition body rest).exec sem quits (fuel + 1) scopes n st =
      if sem.isTrue (condition.eval sem scopes st.vars) then
        followedBy (body.exec sem quits fuel scopes.nest n st)
          (rest.exec sem quits fuel scopes (n + body.declarations))
      else rest.exec sem quits fuel scopes (n + body.declarations) st := by
  rw [Statements.exec]
  rfl

theorem exec_whileDo (quits : Statements → Bool) (fuel : ℕ) (scopes : Scopes) (n : ℕ)
    (condition : Expression) (body rest : Statements) (st : Execution V) :
    (Statements.whileDo condition body rest).exec sem quits (fuel + 1) scopes n st =
      if sem.isTrue (condition.eval sem scopes st.vars) then
        followedBy (body.exec sem quits fuel scopes.nest n st) fun st =>
          if quits body then (.stopped, st)
          else (Statements.whileDo condition body rest).exec sem quits fuel scopes n st
      else rest.exec sem quits fuel scopes (n + body.declarations) st := by
  rw [Statements.exec]
  rfl

/-- The interpreter only adds to the assignments. -/
theorem exec_trace (quits : Statements → Bool) (fuel : ℕ) (scopes : Scopes) (n : ℕ)
    (ss : Statements) (st : Execution V) :
    st.trace <+: (ss.exec sem quits fuel scopes n st).2.trace := by
  induction fuel generalizing scopes n ss st with
  | zero => exact List.prefix_refl _
  | succ fuel ih =>
      cases ss with
      | done => exact List.prefix_refl _
      | assign varName value rest =>
          rw [Statements.exec]
          refine List.IsPrefix.trans ?_ (ih _ _ _ _)
          exact List.prefix_append _ _
      | declare dataType op varName value rest =>
          rw [Statements.exec]
          refine List.IsPrefix.trans ?_ (ih _ _ _ _)
          exact List.prefix_append _ _
      | ifThen condition body rest =>
          rw [exec_ifThen]
          split
          · exact (ih _ _ _ _).trans (trace_followedBy fun st => ih _ _ _ _)
          · exact ih _ _ _ _
      | whileDo condition body rest =>
          rw [exec_whileDo]
          split
          · refine (ih _ _ _ _).trans (trace_followedBy fun st => ?_)
            split
            · exact List.prefix_refl _
            · exact ih _ _ _ _
          · exact ih _ _ _ _
      | ret rest => exact List.prefix_refl _
      | other node hignored rest => exact ih _ _ _ _

/-- One interpretation refines another with one more step, if it does so before that step
and stops at least where the other one does. -/
theorem exec_refines_succ {o : Outcome} (ho : o ≠ .normal) {quits quits' : Statements → Bool}
    {fuel fuel' : ℕ} (hquits : ∀ body, quits body = quits' body ∨ o = .stopped ∧ quits body = true)
    (ih : ∀ scopes n (ss : Statements) (st : Execution V),
      Refines o (ss.exec sem quits fuel scopes n st) (ss.exec sem quits' fuel' scopes n st))
    (scopes : Scopes) (n : ℕ) (ss : Statements) (st : Execution V) :
    Refines o (ss.exec sem quits (fuel + 1) scopes n st)
      (ss.exec sem quits' (fuel' + 1) scopes n st) := by
  cases ss with
  | done => exact .inl rfl
  | assign varName value rest => exact ih _ _ _ _
  | declare dataType op varName value rest => exact ih _ _ _ _
  | ifThen condition body rest =>
      rw [exec_ifThen, exec_ifThen]
      split
      · exact (ih _ _ _ _).followedBy ho (fun st => ih _ _ _ _) fun st => exec_trace _ _ _ _ _ _
      · exact ih _ _ _ _
  | whileDo condition body rest =>
      rw [exec_whileDo, exec_whileDo]
      split
      · have htrace : ∀ st : Execution V, st.trace <+: (if quits' body then (Outcome.stopped, st)
            else (Statements.whileDo condition body rest).exec sem quits' fuel' scopes n
              st).2.trace := by
          intro st
          split
          · exact List.prefix_refl _
          · exact exec_trace _ _ _ _ _ _
        refine (ih _ _ _ _).followedBy ho (fun st => ?_) htrace
        rcases hquits body with hsame | ⟨rfl, hstop⟩
        · rw [hsame]
          split
          · exact .inl rfl
          · exact ih _ _ _ _
        · rw [if_pos hstop]
          exact .inr ⟨rfl, htrace st⟩
      · exact ih _ _ _ _
  | ret rest => exact .inl rfl
  | other node hignored rest => exact ih _ _ _ _

/-- **One more step** changes nothing unless the steps were used up. -/
theorem exec_succ (quits : Statements → Bool) (fuel : ℕ) (scopes : Scopes) (n : ℕ)
    (ss : Statements) (st : Execution V) :
    Refines .cut (ss.exec sem quits fuel scopes n st) (ss.exec sem quits (fuel + 1) scopes n st) := by
  induction fuel generalizing scopes n ss st with
  | zero => exact .inr ⟨rfl, exec_trace quits 1 scopes n ss st⟩
  | succ fuel ih => exact exec_refines_succ (by decide) (fun _ => .inl rfl) ih scopes n ss st

/-- An interpretation that has not stopped early is the reference interpretation, and one
that has is a part of it. -/
theorem exec_quits (quits : Statements → Bool) (fuel : ℕ) (scopes : Scopes) (n : ℕ)
    (ss : Statements) (st : Execution V) :
    Refines .stopped (ss.exec sem quits fuel scopes n st)
      (ss.exec sem (fun _ => false) fuel scopes n st) := by
  have hquits : ∀ body, quits body = false ∨ Outcome.stopped = .stopped ∧ quits body = true := by
    intro body
    cases quits body with
    | false => exact .inl rfl
    | true => exact .inr ⟨rfl, rfl⟩
  induction fuel generalizing scopes n ss st with
  | zero => exact .inl rfl
  | succ fuel ih => exact exec_refines_succ (by decide) hquits ih scopes n ss st

/-- More steps of the interpreter. -/
theorem exec_mono (quits : Statements → Bool) {fuel fuel' : ℕ} (h : fuel ≤ fuel')
    (scopes : Scopes) (n : ℕ) (ss : Statements) (st : Execution V) :
    Refines .cut (ss.exec sem quits fuel scopes n st) (ss.exec sem quits fuel' scopes n st) := by
  induction h with
  | refl => exact .inl rfl
  | @step m _ ih =>
      have hstep : Refines .cut (ss.exec sem quits m scopes n st)
          (ss.exec sem quits (m + 1) scopes n st) := exec_succ quits m scopes n ss st
      rcases ih with heq | ⟨hcut, hprefix⟩
      · exact heq ▸ hstep
      · exact .inr ⟨hcut, hprefix.trans hstep.trace_le⟩

end Interpreter

/-! ## Same behaviour -/

section Behaviour

variable {V : Type} (sem : ValueSemantics V)

/-- The execution of a function from its entry block performs the assignments of the
reference interpretation, ends if this does, and is never stuck. -/
structure SameBehaviour (ir : Ir) (entry : ℕ) (body : Statements) (n : ℕ) (results vars : ℕ → V) :
    Prop where
  performs : ∀ fuel, ∃ k, (body.interpret sem n vars fuel).2.trace <+:
    (irRun sem ir k (irStart entry results vars)).state.trace
  performs_only : ∀ k, ∃ fuel, (irRun sem ir k (irStart entry results vars)).state.trace <+:
    (body.interpret sem n vars fuel).2.trace
  ends_iff : (∃ fuel, (body.interpret sem n vars fuel).1 ≠ .cut) ↔
    ∃ k, irStep sem ir (irRun sem ir k (irStart entry results vars)) = .ended
  not_stuck : ∀ k, irStep sem ir (irRun sem ir k (irStart entry results vars)) ≠ .stuck

/-- The interpretation that stops where it first completes the body of a `while` with
branches. -/
def Statements.interpretUntil (body : Statements) (n : ℕ) (vars : ℕ → V) (fuel : ℕ) :
    Outcome × Execution V :=
  body.exec sem Statements.branches fuel [fun _ => none] n ⟨vars, []⟩

/-- Where the interpretation first completes the body of a `while` with branches, the
reference interpretation makes no further assignment and ends. -/
def StopsAtTheEnd (body : Statements) (n : ℕ) (vars : ℕ → V) : Prop :=
  ∀ fuel st, body.interpretUntil sem n vars fuel = (.stopped, st) →
    ∃ fuel', (body.interpret sem n vars fuel').1 ≠ .cut ∧
      (body.interpret sem n vars fuel').2.trace = st.trace

variable {sem} {ir : Ir} {c : IrConfig V}

/-- A state where the execution has ended is the last one. -/
theorem IrSteps.run_of_ended {c' : IrConfig V} {m : ℕ} (h : IrSteps sem ir c m c')
    (hend : irStep sem ir c' = .ended) {k : ℕ} (hk : m ≤ k) : irRun sem ir k c = c' := by
  obtain ⟨d, rfl⟩ := Nat.exists_eq_add_of_le hk
  rw [h.run_eq, irRun_of_ended hend]

/-- Where there is a next step after `k` others, the run has not ended there. -/
theorem IrSteps.next_of_lt {c c' : IrConfig V} {m k : ℕ} (h : IrSteps sem ir c m c')
    (hk : k < m) : ∃ c'', irStep sem ir (irRun sem ir k c) = .next c'' := by
  induction h generalizing k with
  | refl => exact absurd hk (Nat.not_lt_zero _)
  | head hstep _ ih =>
      cases k with
      | zero => exact ⟨_, hstep⟩
      | succ k =>
          rw [irRun, hstep]
          exact ih (Nat.lt_of_succ_lt_succ hk)

/-- The execution from `c` follows an interpretation: in as many steps, if this is cut, and
else to its end. -/
structure Follows (sem : ValueSemantics V) (ir : Ir) (c : IrConfig V)
    (run : ℕ → Outcome × Execution V) : Prop where
  cut : ∀ fuel, (run fuel).1 = .cut →
    ∃ m c', fuel ≤ m ∧ IrSteps sem ir c m c' ∧ c'.state = (run fuel).2
  ended : ∀ fuel, (run fuel).1 ≠ .cut →
    ∃ m c', IrSteps sem ir c m c' ∧ irStep sem ir c' = .ended ∧ c'.state = (run fuel).2

namespace Follows

variable {run : ℕ → Outcome × Execution V} (h : Follows sem ir c run)

include h

theorem reached (fuel : ℕ) : ∃ k, (run fuel).2 = (irRun sem ir k c).state := by
  by_cases hcut : (run fuel).1 = .cut
  · obtain ⟨m, c', -, hsteps, hst⟩ := h.cut fuel hcut
    exact ⟨m + 0, by rw [hsteps.run_eq 0, ← hst]; rfl⟩
  · obtain ⟨m, c', hsteps, -, hst⟩ := h.ended fuel hcut
    exact ⟨m + 0, by rw [hsteps.run_eq 0, ← hst]; rfl⟩

theorem reaches (k : ℕ) :
    (irRun sem ir k c).state.trace <+: (run k).2.trace := by
  by_cases hcut : (run k).1 = .cut
  · obtain ⟨m, c', hm, hsteps, hst⟩ := h.cut k hcut
    have hmono : (irRun sem ir k c).state.trace <+: (irRun sem ir (m + 0) c).state.trace :=
      irRun_trace_mono hm c
    rw [hsteps.run_eq 0] at hmono
    exact hst ▸ hmono
  · obtain ⟨m, c', hsteps, hend, hst⟩ := h.ended k hcut
    have hmono : (irRun sem ir k c).state.trace <+: (irRun sem ir (max k m) c).state.trace :=
      irRun_trace_mono (Nat.le_max_left k m) c
    rw [hsteps.run_of_ended hend (Nat.le_max_right k m)] at hmono
    exact hst ▸ hmono

theorem ends_iff : (∃ fuel, (run fuel).1 ≠ .cut) ↔
    ∃ k, irStep sem ir (irRun sem ir k c) = .ended := by
  constructor
  · rintro ⟨fuel, hcut⟩
    obtain ⟨m, c', hsteps, hend, -⟩ := h.ended fuel hcut
    exact ⟨m, by rw [hsteps.run_of_ended hend (Nat.le_refl m)]; exact hend⟩
  · rintro ⟨k, hend⟩
    refine ⟨k + 1, fun hcut => ?_⟩
    obtain ⟨m, c', hm, hsteps, -⟩ := h.cut (k + 1) hcut
    obtain ⟨c'', hnext⟩ := hsteps.next_of_lt hm
    rw [hend] at hnext
    cases hnext

theorem not_stuck (k : ℕ) : irStep sem ir (irRun sem ir k c) ≠ .stuck := by
  intro hstuck
  have hnot : ∀ {m c'}, IrSteps sem ir c m c' → m ≤ k := by
    intro m c' hsteps
    by_contra hlt
    obtain ⟨c'', hnext⟩ := hsteps.next_of_lt (Nat.lt_of_not_le hlt)
    rw [hstuck] at hnext
    cases hnext
  by_cases hcut : (run (k + 1)).1 = .cut
  · obtain ⟨m, c', hm, hsteps, -⟩ := h.cut (k + 1) hcut
    exact absurd (hnot hsteps) (Nat.not_le_of_lt hm)
  · obtain ⟨m, c', hsteps, hend, -⟩ := h.ended (k + 1) hcut
    rw [hsteps.run_of_ended hend (hnot hsteps), hend] at hstuck
    cases hstuck

end Follows

/-- Where an interpretation is not cut, no other number of steps makes more assignments. -/
theorem exec_trace_of_ne_cut (quits : Statements → Bool) {fuel : ℕ} {scopes : Scopes} {n : ℕ}
    {ss : Statements} {st : Execution V} (h : (ss.exec sem quits fuel scopes n st).1 ≠ .cut)
    (fuel' : ℕ) : (ss.exec sem quits fuel' scopes n st).2.trace <+:
      (ss.exec sem quits fuel scopes n st).2.trace := by
  rcases Nat.le_total fuel' fuel with hle | hle
  · exact (exec_mono quits hle scopes n ss st).trace_le
  · have hmono : Refines .cut (ss.exec sem quits fuel scopes n st)
        (ss.exec sem quits fuel' scopes n st) := exec_mono quits hle scopes n ss st
    rcases hmono with heq | ⟨hcut, -⟩
    · exact heq ▸ List.prefix_refl _
    · exact absurd hcut h

/-- Code that follows the interpretation that stops follows the reference interpretation
exactly if nothing is left to do where it stops. -/
theorem sameBehaviour_iff {entry n : ℕ} {body : Statements} {results vars : ℕ → V}
    (h : Follows sem ir (irStart entry results vars) (body.interpretUntil sem n vars)) :
    SameBehaviour sem ir entry body n results vars ↔ StopsAtTheEnd sem body n vars := by
  have hquits : ∀ fuel, Refines .stopped (body.interpretUntil sem n vars fuel)
      (body.interpret sem n vars fuel) := fun fuel => exec_quits _ fuel _ n body _
  constructor
  · intro hsame fuel st hstop
    have hcut : (body.interpretUntil sem n vars fuel).1 ≠ .cut := by
      rw [hstop]
      exact Outcome.noConfusion
    obtain ⟨fuel', hcut'⟩ := hsame.ends_iff.mpr (h.ends_iff.mp ⟨fuel, hcut⟩)
    have hprefix : (body.interpret sem n vars fuel').2.trace <+: st.trace := by
      obtain ⟨k, hk⟩ := hsame.performs fuel'
      have hst := exec_trace_of_ne_cut Statements.branches hcut k
      rw [← show _ = st from congrArg Prod.snd hstop]
      exact (hk.trans (h.reaches k)).trans hst
    have hprefix' : st.trace <+: (body.interpret sem n vars fuel').2.trace := by
      obtain ⟨k, hk⟩ := h.reached fuel
      obtain ⟨fuel'', hk'⟩ := hsame.performs_only k
      rw [← hk, hstop] at hk'
      exact hk'.trans (exec_trace_of_ne_cut _ hcut' fuel'')
    exact ⟨fuel', hcut', hprefix.eq_of_length_le hprefix'.length_le⟩
  · intro hstops
    -- where the interpretation stops, the reference interpretation has made all its assignments
    have htrace : ∀ fuel, (body.interpret sem n vars fuel).2.trace <+:
        (body.interpretUntil sem n vars fuel).2.trace := by
      intro fuel
      rcases hquits fuel with heq | ⟨hstop, -⟩
      · exact heq ▸ List.prefix_refl _
      · obtain ⟨fuel', hcut', hst⟩ := hstops fuel _ (Prod.ext hstop rfl)
        rw [← hst]
        exact exec_trace_of_ne_cut _ hcut' fuel
    refine ⟨fun fuel => ?_, fun k => ⟨k, (h.reaches k).trans (hquits k).trace_le⟩, ?_,
      h.not_stuck⟩
    · obtain ⟨k, hk⟩ := h.reached fuel
      exact ⟨k, hk ▸ htrace fuel⟩
    · rw [← h.ends_iff]
      constructor
      · rintro ⟨fuel, hcut⟩
        refine ⟨fuel, fun hcut' => ?_⟩
        rcases hquits fuel with heq | ⟨hstop, -⟩
        · exact hcut (heq ▸ hcut')
        · rw [hcut'] at hstop
          cases hstop
      · rintro ⟨fuel, hcut⟩
        rcases hquits fuel with heq | ⟨hstop, -⟩
        · exact ⟨fuel, heq ▸ hcut⟩
        · obtain ⟨fuel', hcut', -⟩ := hstops fuel _ (Prod.ext hstop rfl)
          exact ⟨fuel', hcut'⟩

/-- The code of a function follows the interpretation that stops. -/
theorem irCreatorCreateFunction_follows (sem : ValueSemantics V) {creator : IrCreator}
    (hinfo : creator.blockInfo = []) (name : Range) (returnType : TokenType) {body : Statements}
    (hscoped : body.WellScoped [fun _ => none] creator.regCount) (results vars : ℕ → V) :
    ∃ creator' entry,
      irCreatorCreateFunction creator (functionAst name returnType body) =
        some (creator', entry) ∧
      Follows sem creator'.ctx (irStart entry results vars)
        (body.interpretUntil sem creator.regCount vars) := by
  have hscopes := scopes_body hinfo
  obtain ⟨inner, hinner⟩ := createBody_succeeds hinfo hscoped
  refine ⟨creator.leaveBlock inner, creator.ctx.blockCount, ?_, ?_⟩
  · exact createFunction_eq_some.mpr
      ⟨name, returnType, body.toAst, [], inner, rfl, hinner, rfl⟩
  · have hcreated := createStatements_created (c := creator.enterBlock) (Nat.lt_succ_self _) hinner
    have hcode := hcreated.code (.refl _ _)
    rw [hscopes, show creator.enterBlock.pos = 0 from
      congrArg List.length (blockNew_blocks_self creator.ctx)] at hcode
    have hend : (inner.ctx.blocks inner.block)[inner.pos]? = none :=
      List.getElem?_eq_none (Nat.le_refl _)
    have hsim : ∀ fuel, Simulates sem inner.ctx (irStart creator.ctx.blockCount results vars) fuel
        (body.interpretUntil sem creator.regCount vars fuel) inner.block inner.pos :=
      fun fuel => StatementsCode.simulates fuel hcode hscoped results ⟨vars, []⟩
    refine ⟨fun fuel hcut => ?_, fun fuel hcut => ?_⟩
    · have h := hsim fuel
      unfold Simulates at h
      rw [hcut] at h
      exact h
    · have h := hsim fuel
      unfold Simulates at h
      split at h
      · obtain ⟨m, results', hsteps⟩ := h
        exact ⟨m, _, hsteps, irStep_end hend _ _, rfl⟩
      · exact absurd ‹_› hcut
      · exact h

end Behaviour

/-! ## Integers, and a loop that is left too early -/

/-- The operators on `int64`; a comparison gives `0` or `1`. -/
def int64Semantics : ValueSemantics Int64 where
  number := id
  binary
    | .add, a, b => a + b
    | .sub, a, b => a - b
    | .mul, a, b => a * b
    | .div, a, b => a / b
    | .equals, a, b => if a = b then 1 else 0
    | .less, a, b => if a < b then 1 else 0
    | .greater, a, b => if a > b then 1 else 0
    | .lessEq, a, b => if a ≤ b then 1 else 0
    | .greaterEq, a, b => if a ≥ b then 1 else 0
  isTrue v := v ≠ 0

/-- **IR creation preserves meaning exactly where no loop is left too early.**  Creation
succeeds on every well-scoped function, and the code behaves as the reference
interpretation if and only if this has nothing left to do where it first completes the body
of a `while` whose own statements include an `if` or a `while`. -/
theorem irCreatorCreateFunction_preserves_iff {V : Type} (sem : ValueSemantics V)
    {creator : IrCreator} (hinfo : creator.blockInfo = []) (name : Range)
    (returnType : TokenType) {body : Statements}
    (hscoped : body.WellScoped [fun _ => none] creator.regCount) (results vars : ℕ → V) :
    ∃ creator' entry,
      irCreatorCreateFunction creator (functionAst name returnType body) =
        some (creator', entry) ∧
      (SameBehaviour sem creator'.ctx entry body creator.regCount results vars ↔
        StopsAtTheEnd sem body creator.regCount vars) := by
  obtain ⟨creator', entry, hcreate, hfollows⟩ :=
    irCreatorCreateFunction_follows sem hinfo name returnType hscoped results vars
  exact ⟨creator', entry, hcreate, sameBehaviour_iff hfollows⟩

theorem irCreatorCreateFunction_preserves_branchAndCount : ∃ creator' entry,
    irCreatorCreateFunction (irCreatorInit irContextInit)
      (functionAst "f".toUTF8.toList .KW_VOID branchAndCount) = some (creator', entry) ∧
    (SameBehaviour int64Semantics creator'.ctx entry branchAndCount 0 (fun _ => 0) (fun _ => 0) ↔
      StopsAtTheEnd int64Semantics branchAndCount 0 fun _ => 0) :=
  irCreatorCreateFunction_preserves_iff int64Semantics
    (show (irCreatorInit irContextInit).blockInfo = [] from rfl) _ _ wellScoped_branchAndCount _ _

/-- `int64 a = 2; while (a) { if (a) { } a = a - 1; }`. -/
def countdown : Statements :=
  .declare .KW_INT64 .ASSIGN "a".toUTF8.toList (.number 2)
    (.whileDo (.var "a".toUTF8.toList)
      (.ifThen (.var "a".toUTF8.toList) .done
        (.assign "a".toUTF8.toList (.binary .sub (.var "a".toUTF8.toList) (.number 1)) .done))
      .done)

/-- The code of `countdown` counts to `1` only. -/
theorem irCreatorCreateFunction_leaves_loop :
    countdown.WellScoped [fun _ => none] 0 ∧ ∃ creator' entry,
      irCreatorCreateFunction (irCreatorInit irContextInit)
        (functionAst "f".toUTF8.toList .KW_VOID countdown) = some (creator', entry) ∧
      ¬ SameBehaviour int64Semantics creator'.ctx entry countdown 0 (fun _ => 0) fun _ => 0 := by
  have hscoped : countdown.WellScoped [fun _ => none] 0 := by decide +kernel
  obtain ⟨creator', entry, hcreate, hfollows⟩ := irCreatorCreateFunction_follows
    int64Semantics (show (irCreatorInit irContextInit).blockInfo = [] from rfl)
    "f".toUTF8.toList .KW_VOID hscoped (fun _ => 0) (fun _ => 0)
  refine ⟨hscoped, creator', entry, hcreate, fun hsame => ?_⟩
  have hstop : (countdown.interpretUntil int64Semantics 0 (fun _ => 0) 20).1 = .stopped := by
    decide +kernel
  obtain ⟨fuel, hcut, htrace⟩ : ∃ fuel,
      (countdown.interpret int64Semantics 0 (fun _ => 0) fuel).1 ≠ .cut ∧
      (countdown.interpret int64Semantics 0 (fun _ => 0) fuel).2.trace =
        (countdown.interpretUntil int64Semantics 0 (fun _ => 0) 20).2.trace :=
    (sameBehaviour_iff hfollows).mp hsame 20 _ (Prod.ext hstop rfl)
  -- the reference interpretation makes three assignments
  have hmore : (countdown.interpret int64Semantics 0 (fun _ => 0) 20).2.trace.length ≤
      (countdown.interpret int64Semantics 0 (fun _ => 0) fuel).2.trace.length :=
    (exec_trace_of_ne_cut _ hcut 20).length_le
  rw [htrace] at hmore
  revert hmore
  decide +kernel
