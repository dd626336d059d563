/-
# Runs of a machine

Generic support for claims of the form "for every sequence of calls".  A machine
is a step function; a run is a list of actions.

* `EveryStep step P s as` says that every step of the run `as` from `s`
  satisfies `P`, a predicate of the state before the step and of the action;
* `run step s as` runs a machine whose steps may fail (an assertion of the
  program), and `AllSteps step P s as` says that every step taken satisfies `P`.

`everyStep_iff_of_inv` and `allSteps_iff_of_inv` turn an equivalence of two predicates
on one step into an equivalence on whole runs, and `run_invariant` packages the
induction that lifts an invariant of one step to every state reached.
-/
import Mathlib.Data.List.Basic

namespace Runs

variable {S A : Type*}

/-! ## Total machines -/

/-- Every step of the run `as` from `s` satisfies `P`. -/
def EveryStep (step : S → A → S) (P : S → A → Prop) : S → List A → Prop
  | _, [] => True
  | s, a :: as => P s a ∧ EveryStep step P (step s a) as

section EveryStep

variable {step : S → A → S} {P Q : S → A → Prop}

@[simp] theorem everyStep_nil (s : S) : EveryStep step P s [] := trivial

@[simp] theorem everyStep_cons (s : S) (a : A) (as : List A) :
    EveryStep step P s (a :: as) ↔ P s a ∧ EveryStep step P (step s a) as := Iff.rfl

/-- A run in two parts. -/
theorem everyStep_append (s : S) (as bs : List A) :
    EveryStep step P s (as ++ bs) ↔
      EveryStep step P s as ∧ EveryStep step P (as.foldl step s) bs := by
  induction as generalizing s with
  | nil => simp
  | cons a as ih =>
      rw [List.cons_append, everyStep_cons, everyStep_cons, ih, List.foldl_cons, and_assoc]

/-- **Invariants of runs of allowed steps.** -/
theorem everyStep_of_inv {I : S → Prop} (hstep : ∀ s a, I s → P s a → I (step s a) ∧ Q s a)
    (s : S) (as : List A) (hs : I s) (hall : EveryStep step P s as) : EveryStep step Q s as := by
  induction as generalizing s with
  | nil => trivial
  | cons a as ih =>
      obtain ⟨ha, has⟩ := hall
      obtain ⟨hs', hq⟩ := hstep s a hs ha
      exact ⟨hq, ih _ hs' has⟩

/-- What the start satisfies and every allowed step keeps holds at the end of the run. -/
theorem foldl_of_everyStep {I : S → Prop} (hstep : ∀ s a, I s → P s a → I (step s a))
    (s : S) (as : List A) (hs : I s) (hall : EveryStep step P s as) : I (as.foldl step s) := by
  induction as generalizing s with
  | nil => exact hs
  | cons a as ih => exact ih _ (hstep s a hs hall.1) hall.2

theorem everyStep_and (s : S) (as : List A) :
    EveryStep step (fun s a => P s a ∧ Q s a) s as ↔
      EveryStep step P s as ∧ EveryStep step Q s as := by
  induction as generalizing s with
  | nil => simp
  | cons a as ih =>
      rw [everyStep_cons, everyStep_cons, everyStep_cons, ih]
      exact and_and_and_comm

instance decidableEveryStep [∀ s a, Decidable (P s a)] :
    ∀ (s : S) (as : List A), Decidable (EveryStep step P s as)
  | _, [] => isTrue trivial
  | s, a :: as =>
    have := decidableEveryStep (step s a) as
    inferInstanceAs (Decidable (_ ∧ _))

/-- **Lifting an equivalence to runs.**  If, under an invariant, the good steps are
exactly those that meet a condition, and good steps keep the invariant, then the
good runs are exactly those whose steps all meet the condition. -/
theorem everyStep_iff_of_inv {I : S → Prop} {Allowed : S → A → Prop}
    (hiff : ∀ s a, I s → Allowed s a → (P s a ↔ Q s a))
    (hinv : ∀ s a, I s → Allowed s a → P s a → I (step s a))
    (s : S) (as : List A) (hs : I s) (hall : EveryStep step Allowed s as) :
    EveryStep step P s as ↔ EveryStep step Q s as := by
  induction as generalizing s with
  | nil => simp
  | cons a as ih =>
      obtain ⟨ha, has⟩ := hall
      rw [everyStep_cons, everyStep_cons]
      constructor
      · rintro ⟨hP, hPs⟩
        exact ⟨(hiff s a hs ha).mp hP, (ih _ (hinv s a hs ha hP) has).mp hPs⟩
      · rintro ⟨hQ, hQs⟩
        have hP := (hiff s a hs ha).mpr hQ
        exact ⟨hP, (ih _ (hinv s a hs ha hP) has).mpr hQs⟩

end EveryStep

/-! ## Machines that may fail -/

/-- Run the actions one after the other; `none` as soon as a step fails. -/
def run (step : S → A → Option S) : S → List A → Option S
  | s, [] => some s
  | s, a :: as => (step s a).bind (fun s' => run step s' as)

section Run

variable {step : S → A → Option S}

@[simp] theorem run_nil (s : S) : run step s [] = some s := rfl

theorem run_cons (s : S) (a : A) (as : List A) :
    run step s (a :: as) = (step s a).bind (fun s' => run step s' as) := rfl

/-- A run that starts with `a` succeeds through the state `a` leads to. -/
theorem run_cons_eq_some {s s' : S} {a : A} {as : List A} :
    run step s (a :: as) = some s' ↔ ∃ t, step s a = some t ∧ run step t as = some s' := by
  rw [run_cons, Option.bind_eq_some_iff]

/-- A run in two parts. -/
theorem run_append (s : S) (as bs : List A) :
    run step s (as ++ bs) = (run step s as).bind (fun s' => run step s' bs) := by
  induction as generalizing s with
  | nil => rfl
  | cons a as ih =>
      rw [List.cons_append, run_cons, run_cons, Option.bind_assoc]
      congr 1
      funext t
      exact ih t

@[simp] theorem run_singleton (s : S) (a : A) : run step s [a] = step s a := by
  rw [run_cons]
  cases step s a <;> rfl

/-- **Invariants of runs.**  What holds at the start and is kept by every step that
succeeds holds in every state reached. -/
theorem run_invariant {I : S → Prop}
    (hstep : ∀ s a s', I s → step s a = some s' → I s')
    {s s' : S} {as : List A} (hs : I s) (h : run step s as = some s') : I s' := by
  induction as generalizing s with
  | nil =>
      rw [run_nil, Option.some.injEq] at h
      exact h ▸ hs
  | cons a as ih =>
      obtain ⟨t, ht, hrun⟩ := run_cons_eq_some.mp h
      exact ih (hstep s a t hs ht) hrun

/-- Every step of the run satisfies `P`, as far as the run gets. -/
def AllSteps (step : S → A → Option S) (P : S → A → Prop) : S → List A → Prop
  | _, [] => True
  | s, a :: as => P s a ∧ ∀ s', step s a = some s' → AllSteps step P s' as

@[simp] theorem allSteps_nil (P : S → A → Prop) (s : S) : AllSteps step P s [] := trivial

theorem allSteps_cons (P : S → A → Prop) (s : S) (a : A) (as : List A) :
    AllSteps step P s (a :: as) ↔
      P s a ∧ ∀ s', step s a = some s' → AllSteps step P s' as := Iff.rfl

instance decidableAllSteps (P : S → A → Prop) [∀ s a, Decidable (P s a)] :
    ∀ (s : S) (as : List A), Decidable (AllSteps step P s as)
  | _, [] => isTrue trivial
  | s, a :: as =>
    match h : step s a with
    | none => decidable_of_iff (P s a) ⟨fun hp => ⟨hp, fun s' hs => by rw [h] at hs; cases hs⟩,
        fun hp => hp.1⟩
    | some t =>
      have := decidableAllSteps P t as
      decidable_of_iff (P s a ∧ AllSteps step P t as) ⟨fun hp => ⟨hp.1, fun s' hs => by
        rw [h, Option.some.injEq] at hs
        exact hs ▸ hp.2⟩, fun hp => ⟨hp.1, hp.2 t h⟩⟩

/-- **Invariants of runs of allowed steps.** -/
theorem run_invariant_of_allSteps {I : S → Prop} {P : S → A → Prop}
    (hstep : ∀ s a s', I s → P s a → step s a = some s' → I s')
    {s s' : S} {as : List A} (hs : I s) (hall : AllSteps step P s as)
    (h : run step s as = some s') : I s' := by
  induction as generalizing s with
  | nil =>
      rw [run_nil, Option.some.injEq] at h
      exact h ▸ hs
  | cons a as ih =>
      obtain ⟨ha, has⟩ := hall
      obtain ⟨t, ht, hrun⟩ := run_cons_eq_some.mp h
      exact ih (hstep s a t hs ha ht) (has t ht) hrun

/-- **Lifting an equivalence to runs** of a machine that may fail. -/
theorem allSteps_iff_of_inv {I : S → Prop} {Allowed P Q : S → A → Prop}
    (hiff : ∀ s a, I s → Allowed s a → (P s a ↔ Q s a))
    (hinv : ∀ s a s', I s → Allowed s a → P s a → step s a = some s' → I s')
    (s : S) (as : List A) (hs : I s) (hall : AllSteps step Allowed s as) :
    AllSteps step P s as ↔ AllSteps step Q s as := by
  induction as generalizing s with
  | nil => simp
  | cons a as ih =>
      obtain ⟨ha, has⟩ := hall
      rw [allSteps_cons, allSteps_cons]
      constructor
      · rintro ⟨hP, hPs⟩
        exact ⟨(hiff s a hs ha).mp hP, fun s' hs' =>
          (ih s' (hinv s a s' hs ha hP hs') (has s' hs')).mp (hPs s' hs')⟩
      · rintro ⟨hQ, hQs⟩
        have hP := (hiff s a hs ha).mpr hQ
        exact ⟨hP, fun s' hs' =>
          (ih s' (hinv s a s' hs ha hP hs') (has s' hs')).mpr (hQs s' hs')⟩

end Run

end Runs
