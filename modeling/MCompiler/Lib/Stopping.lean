/-
# Computations that stop

A computation that returns or stops is an `Except`.

* `ok_bind`, `error_bind` : how it goes on;
* `mapM_ok`, `exists_of_mapM_ok` : computations over the members of a list;
* `foldlM_ok`, `exists_of_foldlM_ok` : loops over a list;
* `SameOutcome` : two computations that return related results or stop for one reason.
-/
import Mathlib.Data.List.Basic

section Stopping

variable {ε α β γ : Type}

theorem ok_bind (a : α) (f : α → Except ε β) : (Except.ok a >>= f) = f a := rfl

theorem error_bind (e : ε) (f : α → Except ε β) : (Except.error e >>= f) = .error e := rfl

/-- A computation of two steps returns if both do. -/
theorem exists_of_bind_ok {x : Except ε α} {f : α → Except ε β} {b : β}
    (h : (x >>= f) = .ok b) : ∃ a, x = .ok a ∧ f a = .ok b := by
  cases x with
  | error e => cases h
  | ok a => exact ⟨a, rfl, h⟩

variable {f : α → Except ε β}

/-- All return. -/
theorem mapM_ok {l : List α} {g : α → β} (h : ∀ a ∈ l, f a = .ok (g a)) :
    l.mapM f = .ok (l.map g) := by
  induction l with
  | nil => rfl
  | cons a l ih =>
    rw [List.mapM_cons, h a (by simp), ih fun b hb => h b (by simp [hb])]
    rfl

/-- If the list returns, every member does. -/
theorem exists_of_mapM_ok {l : List α} {results : List β} (h : l.mapM f = .ok results) :
    ∀ a ∈ l, ∃ b, f a = .ok b := by
  induction l generalizing results with
  | nil => simp
  | cons a l ih =>
    rw [List.mapM_cons] at h
    cases ha : f a with
    | error stop =>
      rw [ha] at h
      cases h
    | ok b =>
      rw [ha] at h
      cases hl : l.mapM f with
      | error stop =>
        rw [hl] at h
        cases h
      | ok bs =>
        intro c hc
        rcases List.mem_cons.1 hc with rfl | hc
        · exact ⟨b, ha⟩
        · exact ih hl c hc

variable {σ : Type} {next : σ → α → Except ε σ}

/-- If a loop returns, every round does. -/
theorem exists_of_foldlM_ok {l : List α} {s s' : σ} (h : l.foldlM next s = .ok s') :
    ∀ a ∈ l, ∃ s₁ s₂, next s₁ a = .ok s₂ := by
  induction l generalizing s with
  | nil => exact fun a ha => absurd ha List.not_mem_nil
  | cons a l ih =>
    rw [List.foldlM_cons] at h
    obtain ⟨s₁, hs₁, hrest⟩ := exists_of_bind_ok h
    exact List.forall_mem_cons.mpr ⟨⟨s, s₁, hs₁⟩, ih hrest⟩

/-- A loop whose rounds return and keep what has been done so far, `I`, up to date. -/
theorem foldlM_ok {I : List α → σ → Prop} {l : List α}
    (h : ∀ a ∈ l, ∀ done s, I done s → ∃ s', next s a = .ok s' ∧ I (done ++ [a]) s') :
    ∀ {done : List α} {s : σ}, I done s → ∃ s', l.foldlM next s = .ok s' ∧ I (done ++ l) s' := by
  induction l with
  | nil =>
    intro done s hs
    exact ⟨s, rfl, (List.append_nil done).symm ▸ hs⟩
  | cons a l ih =>
    intro done s hs
    obtain ⟨s₁, hs₁, hdone⟩ := h a List.mem_cons_self done s hs
    obtain ⟨s', hs', hall⟩ := ih (fun b hb => h b (List.mem_cons_of_mem a hb)) hdone
    refine ⟨s', ?_, ?_⟩
    · rw [List.foldlM_cons, hs₁]
      exact hs'
    · rwa [List.append_assoc] at hall

end Stopping

section Outcomes

variable {ε α β γ δ : Type}

/-- Both return, with related results, or both stop for the same reason. -/
inductive SameOutcome (r : α → β → Prop) : Except ε α → Except ε β → Prop where
  | ok {a : α} {b : β} (h : r a b) : SameOutcome r (.ok a) (.ok b)
  | error (e : ε) : SameOutcome r (.error e) (.error e)

variable {r : α → β → Prop} {s : γ → δ → Prop}

/-- Two computations in two steps. -/
theorem SameOutcome.bind {x : Except ε α} {y : Except ε β} {f : α → Except ε γ}
    {g : β → Except ε δ} (h : SameOutcome r x y)
    (hfg : ∀ a b, r a b → SameOutcome s (f a) (g b)) : SameOutcome s (x >>= f) (y >>= g) := by
  cases h with
  | ok h => exact hfg _ _ h
  | error e => exact .error e

theorem SameOutcome.mono {r' : α → β → Prop} {x : Except ε α} {y : Except ε β}
    (h : SameOutcome r x y) (hr : ∀ a b, r a b → r' a b) : SameOutcome r' x y := by
  cases h with
  | ok h => exact .ok (hr _ _ h)
  | error e => exact .error e

theorem SameOutcome.exists_ok {a : α} {y : Except ε β} (h : SameOutcome r (.ok a) y) :
    ∃ b, y = .ok b ∧ r a b := by
  cases h with
  | ok h => exact ⟨_, rfl, h⟩

end Outcomes
