/-
# Machines in lockstep

A machine takes steps until it returns a result or cannot go on.  A machine that does what
another one does, step by step, apart from steps that have no counterpart, returns the same
results (`Lockstep.haltsWith_iff`).
-/
import Mathlib.Tactic.Common

/-- What a step leads to: another state, or the result. -/
inductive Next (S R : Type*) where
  | running (s : S)
  | returned (r : R)

section Halts

variable {S R : Type*} {step : S → Option (Next S R)}

/-- The machine gets from a state to its result. -/
inductive HaltsWith (step : S → Option (Next S R)) : S → R → Prop
  | returned {s : S} {r : R} : step s = some (.returned r) → HaltsWith step s r
  | running {s t : S} {r : R} : step s = some (.running t) → HaltsWith step t r →
      HaltsWith step s r

/-- The result of at most `n` steps. -/
def runFor (step : S → Option (Next S R)) : ℕ → S → Option R
  | 0, _ => none
  | n + 1, s =>
      match step s with
      | none => none
      | some (.returned r) => some r
      | some (.running t) => runFor step n t

theorem haltsWith_of_runFor {n : ℕ} {s : S} {r : R} (h : runFor step n s = some r) :
    HaltsWith step s r := by
  induction n generalizing s with
  | zero => cases h
  | succ n ih =>
      unfold runFor at h
      split at h
      case h_1 => cases h
      case h_2 r' hret =>
        cases h
        exact .returned hret
      case h_3 t hrun => exact .running hrun (ih h)

end Halts

section Simulation

variable {S T R : Type*} {step : S → Option (Next S R)} {step' : T → Option (Next T R)}
  {f : S → T} {rank : S → ℕ}

/-- At the state `f s` the second machine does what the first does at `s`, apart from steps of
the first that lower its rank and leave the second where it is. -/
structure Lockstep (step : S → Option (Next S R)) (step' : T → Option (Next T R)) (f : S → T)
    (rank : S → ℕ) : Prop where
  stuck : ∀ s, step s = none → step' (f s) = none
  returned : ∀ s r, step s = some (.returned r) → step' (f s) = some (.returned r)
  running : ∀ s t, step s = some (.running t) →
    step' (f s) = some (.running (f t)) ∨ f t = f s ∧ rank t < rank s

/-- What the first machine returns, the second returns. -/
theorem Lockstep.forward (h : Lockstep step step' f rank) {s : S} {r : R}
    (hs : HaltsWith step s r) : HaltsWith step' (f s) r := by
  induction hs with
  | returned hret => exact .returned (h.returned _ _ hret)
  | running hrun ht ih =>
      rcases h.running _ _ hrun with hstep | ⟨hsame, -⟩
      · exact .running hstep ih
      · exact hsame ▸ ih

/-- After the steps of its own the first machine is at a state where both do the same. -/
theorem Lockstep.skip (h : Lockstep step step' f rank) (s : S) :
    ∃ t, f t = f s ∧ (∀ r, HaltsWith step t r → HaltsWith step s r) ∧
      ∀ u, step t = some (.running u) → step' (f t) = some (.running (f u)) := by
  induction hrank : rank s using Nat.strongRecOn generalizing s with
  | ind n ih =>
      by_cases hall : ∀ u, step s = some (.running u) → step' (f s) = some (.running (f u))
      · exact ⟨s, rfl, fun _ => id, hall⟩
      · obtain ⟨u, hu⟩ := not_forall.mp hall
        obtain ⟨hstep, hne⟩ := Classical.not_imp.mp hu
        obtain ⟨hsame, hlt⟩ := (h.running s u hstep).resolve_left hne
        obtain ⟨t, ht, hback, hrun⟩ := ih (rank u) (hrank ▸ hlt) u rfl
        exact ⟨t, ht.trans hsame, fun r hr => .running hstep (hback r hr), hrun⟩

/-- What the second machine returns, the first returns. -/
theorem Lockstep.backward (h : Lockstep step step' f rank) {x : T} {r : R}
    (hx : HaltsWith step' x r) : ∀ s, f s = x → HaltsWith step s r := by
  induction hx with
  | returned hret =>
      rintro s rfl
      obtain ⟨t, ht, hback, hrun⟩ := h.skip s
      rw [← ht] at hret
      refine hback _ ?_
      match hstep : step t with
      | none => rw [h.stuck t hstep] at hret; cases hret
      | some (.returned r') =>
          rw [h.returned t r' hstep] at hret
          cases hret
          exact .returned hstep
      | some (.running u) => rw [hrun u hstep] at hret; cases hret
  | running hrun' hy ih =>
      rintro s rfl
      obtain ⟨t, ht, hback, hrun⟩ := h.skip s
      rw [← ht] at hrun'
      refine hback _ ?_
      match hstep : step t with
      | none => rw [h.stuck t hstep] at hrun'; cases hrun'
      | some (.returned r') => rw [h.returned t r' hstep] at hrun'; cases hrun'
      | some (.running u) =>
          rw [hrun u hstep] at hrun'
          cases hrun'
          exact .running hstep (ih u rfl)

/-- **Machines in lockstep return the same.** -/
theorem Lockstep.haltsWith_iff (h : Lockstep step step' f rank) (s : S) (r : R) :
    HaltsWith step s r ↔ HaltsWith step' (f s) r :=
  ⟨h.forward, fun hs => h.backward hs s rfl⟩

end Simulation
