/-
# Loops that may fail

An invariant `I k s` of a loop over `0, …, n - 1`: it holds of the state `s` before the round
`k`.  If every round succeeds and leads from `I k` to `I (k + 1)`, the loop succeeds and
ends with `I n`.
-/
import Mathlib.Data.List.Basic
import Mathlib.Data.List.Range

namespace Loop

variable {S : Type*} {step : S → ℕ → Option S} {I : ℕ → S → Prop} {n : ℕ} {s : S}

/-- **A loop with a counter.** -/
theorem foldlM_range (hstep : ∀ k < n, ∀ s, I k s → ∃ s', step s k = some s' ∧ I (k + 1) s')
    (h : I 0 s) : ∃ s', (List.range n).foldlM step s = some s' ∧ I n s' := by
  induction n with
  | zero => exact ⟨s, rfl, h⟩
  | succ n ih =>
      obtain ⟨s₁, hrun₁, h₁⟩ := ih fun k hk => hstep k (hk.trans (Nat.lt_succ_self n))
      obtain ⟨s₂, hrun₂, h₂⟩ := hstep n (Nat.lt_succ_self n) s₁ h₁
      refine ⟨s₂, ?_, h₂⟩
      rw [List.range_succ, List.foldlM_append, hrun₁]
      show List.foldlM step s₁ [n] = _
      rw [List.foldlM_cons, hrun₂]
      rfl

/-- The numbers of a loop that counts down. -/
theorem reverse_range (h : 0 < n) :
    (List.range n).reverse = (n - 1) :: (List.range (n - 1)).reverse := by
  conv_lhs => rw [← Nat.sub_one_add_one_eq_of_pos h]
  rw [List.range_succ, List.reverse_append, List.reverse_singleton, List.singleton_append]

/-- A loop on related states, where the rounds keep the states related. -/
theorem foldlM_hom {T X : Type*} {next : S → X → Option S} {next' : T → X → Option T} (g : S → T)
    (h : ∀ s x, next' (g s) x = (next s x).map g) (l : List X) (s : S) :
    l.foldlM next' (g s) = (l.foldlM next s).map g := by
  induction l generalizing s with
  | nil => rfl
  | cons x l ih =>
      rw [List.foldlM_cons, List.foldlM_cons, h]
      show ((next s x).map g).bind _ = Option.map g ((next s x).bind _)
      cases next s x with
      | none => rfl
      | some s' => exact ih s'

/-- A loop whose rounds succeed where those of another one do, with the same result. -/
theorem foldlM_mono {X : Type*} {next next' : S → X → Option S}
    (h : ∀ s x s', next s x = some s' → next' s x = some s') (l : List X) {s s' : S}
    (hl : l.foldlM next s = some s') : l.foldlM next' s = some s' := by
  induction l generalizing s with
  | nil => exact hl
  | cons x l ih =>
      obtain ⟨s₁, hs₁, hrest⟩ := Option.bind_eq_some_iff.mp hl
      exact Option.bind_eq_some_iff.mpr ⟨s₁, h s x s₁ hs₁, ih hrest⟩

/-- A loop over lists of rounds. -/
theorem foldlM_flatMap {X Y : Type*} {next : S → Y → Option S} {rounds : X → List Y} (l : List X) :
    ∀ s, (l.flatMap rounds).foldlM next s = l.foldlM (fun s x => (rounds x).foldlM next s) s := by
  induction l with
  | nil => exact fun s => rfl
  | cons x l ih =>
      intro s
      rw [List.flatMap_cons, List.foldlM_append, List.foldlM_cons]
      exact congrArg _ (funext ih)

/-- Rounds that do the same. -/
theorem foldlM_congr {X : Type*} {next next' : S → X → Option S} {l : List X}
    (h : ∀ x ∈ l, ∀ s, next s x = next' s x) : ∀ s, l.foldlM next s = l.foldlM next' s := by
  induction l with
  | nil => exact fun s => rfl
  | cons x l ih =>
      intro s
      rw [List.foldlM_cons, List.foldlM_cons, h x List.mem_cons_self s]
      exact congrArg _ (funext (ih fun y hy => h y (List.mem_cons_of_mem x hy)))

/-- **A loop that follows another one**: its rounds succeed where those of the other one do,
and keep the states related. -/
theorem foldlM_related {T X : Type*} {R : S → T → Prop} {next : S → X → Option S}
    {next' : T → X → Option T} (l : List X)
    (h : ∀ x ∈ l, ∀ s t t', R s t → next' t x = some t' → ∃ s', next s x = some s' ∧ R s' t')
    {t t' : T} (hR : R s t) (hl : l.foldlM next' t = some t') :
    ∃ s', l.foldlM next s = some s' ∧ R s' t' := by
  induction l generalizing s t with
  | nil =>
      obtain rfl := Option.some.inj hl
      exact ⟨s, rfl, hR⟩
  | cons x l ih =>
      obtain ⟨t₁, ht₁, hrest⟩ := Option.bind_eq_some_iff.mp hl
      obtain ⟨s₁, hs₁, hR₁⟩ := h x List.mem_cons_self s t t₁ hR ht₁
      obtain ⟨s', hs', hR'⟩ := ih (fun x hx => h x (List.mem_cons_of_mem _ hx)) hR₁ hrest
      exact ⟨s', Option.bind_eq_some_iff.mpr ⟨s₁, hs₁, hs'⟩, hR'⟩

/-- What holds before a round if it holds after it, holds before the loop. -/
theorem foldlM_back {X : Type*} {P : S → Prop} {next : S → X → Option S}
    (hback : ∀ s x s', next s x = some s' → P s' → P s) (l : List X) {s s' : S}
    (h : l.foldlM next s = some s') (hs' : P s') : P s := by
  induction l generalizing s with
  | nil =>
      obtain rfl := Option.some.inj h
      exact hs'
  | cons x l ih =>
      obtain ⟨s₁, hs₁, hrest⟩ := Option.bind_eq_some_iff.mp h
      exact hback s x s₁ hs₁ (ih hrest)

/-- **A loop that stops when `P` fails**, which does not hold again once it has failed: it ends
as the loop without the checks, if `P` holds in the end. -/
theorem foldlM_guarded {X : Type*} {P : S → Prop} {next guarded : S → X → Option S}
    (hguarded : ∀ s x s', P s → (guarded s x = some s' ↔ next s x = some s' ∧ P s'))
    (hback : ∀ s x s', next s x = some s' → P s' → P s) (l : List X) {s s' : S} (hs : P s) :
    l.foldlM guarded s = some s' ↔ l.foldlM next s = some s' ∧ P s' := by
  induction l generalizing s with
  | nil =>
      refine ⟨fun h => ⟨h, ?_⟩, And.left⟩
      exact Option.some.inj h ▸ hs
  | cons x l ih =>
      rw [List.foldlM_cons, List.foldlM_cons, Option.bind_eq_bind, Option.bind_eq_some_iff,
        Option.bind_eq_some_iff]
      constructor
      · rintro ⟨s₁, hs₁, hrest⟩
        obtain ⟨hnext, hP⟩ := (hguarded s x s₁ hs).mp hs₁
        obtain ⟨hrest', hP'⟩ := (ih hP).mp hrest
        exact ⟨⟨s₁, hnext, hrest'⟩, hP'⟩
      · rintro ⟨⟨s₁, hnext, hrest⟩, hP'⟩
        have hP := foldlM_back hback l hrest hP'
        exact ⟨s₁, (hguarded s x s₁ hs).mpr ⟨hnext, hP⟩, (ih hP).mpr ⟨hrest, hP'⟩⟩

end Loop
