/-
# Walks and dominance frontiers

What a walk meets after it has passed a dominator of its end, or a node of a set.

* `Walk.dominates_tail` : after its last visit of a dominator of its end a walk meets only
  nodes that this dominator dominates;
* `iteratedFrontier_of_walk` : a walk from a node of a set that meets no strict dominator of
  its end leads to the iterated frontier of the set.
-/
import MCompiler.Lib.Dominance

namespace FlowGraph

variable {α : Type*} {E : α → α → Prop} {r : α} {p s : List α} {b c d u x : α} {S : α → Prop}

/-! ## Parts of walks -/

/-- Cutting a walk behind one of its nodes. -/
theorem Walk.of_append (h : Walk E r (p ++ [c] ++ s) b) : Walk E r (p ++ [c]) c := by
  induction s using List.reverseRecOn generalizing b with
  | nil =>
      rw [List.append_nil] at h
      rwa [← (walk_append_singleton.mp h).1] at h
  | append_singleton s x ih =>
      rw [← List.append_assoc] at h
      obtain ⟨-, ⟨hnil, -⟩ | ⟨a, h', -⟩⟩ := walk_append_singleton.mp h
      · simp at hnil
      · exact ih h'

/-- Two nodes of a walk that follow each other. -/
theorem Walk.edge (h : Walk E r (p ++ [c] ++ d :: s) b) : E c d := by
  have hsplit : Walk E r (p ++ [c] ++ [d] ++ s) b := by
    rwa [List.append_assoc (p ++ [c])]
  obtain ⟨-, ⟨hnil, -⟩ | ⟨a, h', hE⟩⟩ := walk_append_singleton.mp hsplit.of_append
  · simp at hnil
  · rwa [(walk_append_singleton.mp h').1]

/-- A node of a walk at its last visit. -/
theorem exists_last_visit [DecidableEq α] {p : List α} (hd : d ∈ p) :
    ∃ p₁ p₂, p = p₁ ++ [d] ++ p₂ ∧ d ∉ p₂ := by
  obtain ⟨x, p₁, p₂, heq, hx, hnot, -⟩ := exists_last_split (d := d) hd
  rw [or_self] at hx
  exact ⟨p₁, p₂, hx ▸ heq, hnot⟩

/-- **After the last visit of a dominator.** -/
theorem Walk.dominates_tail (h : Walk E r (p ++ [d] ++ s) b) (hd : Dominates E r d b)
    (hs : d ∉ s) : ∀ y ∈ s, Dominates E r d y := by
  intro y hy q hq
  obtain ⟨s₁, s₂, rfl⟩ := List.append_of_mem hy
  have hsplit : Walk E r (p ++ [d] ++ s₁ ++ [y] ++ s₂) b := by
    rwa [List.append_assoc _ [y] s₂, List.append_assoc _ s₁]
  rcases List.mem_append.mp (hd _ (hsplit.splice hq)) with hmem | hmem
  · exact hmem
  · exact absurd (List.mem_append_right _ (List.mem_cons_of_mem _ hmem)) hs

/-- Behind the immediate dominator no strict dominator is met. -/
theorem IsIDom.not_strictlyDominates_tail (hidom : IsIDom E r d b)
    (h : Walk E r (p ++ [d] ++ s) b) (hs : d ∉ s) :
    ∀ y ∈ s, ¬ StrictlyDominates E r y b := by
  intro y hy hstrict
  have hyd := hidom.least y hstrict
  have hdy := h.dominates_tail hidom.strict.2 hs y hy
  have hd : Reachable E r d := hidom.strict.2.reachable ⟨_, h⟩
  have heq := hyd.antisymm hd hdy
  exact hs (heq ▸ hy)

/-- Nothing strictly dominates the root. -/
theorem not_strictlyDominates_root (y : α) : ¬ StrictlyDominates E r y r := fun h =>
  h.1 (List.mem_singleton.mp (h.2 [r] .root))

/-! ## Walks to the iterated frontier -/

/-- A walk that goes on from a node that `u` dominates, by induction on its rest. -/
theorem iteratedFrontier_or_nil (h : Walk E r (p ++ [x] ++ s) b)
    (hu : S u ∨ IteratedFrontier E r S u) (hux : Dominates E r u x)
    (hub : ¬ StrictlyDominates E r u b) (hs : ∀ y ∈ s, ¬ StrictlyDominates E r y b) :
    IteratedFrontier E r S b ∨ s = [] := by
  induction s generalizing p x u with
  | nil => exact .inr rfl
  | cons y s ih =>
      have hE : E x y := h.edge
      have hsplit : Walk E r (p ++ [x] ++ [y] ++ s) b := by
        rwa [List.append_assoc (p ++ [x])]
      have hend : s = [] → y = b := by
        rintro rfl
        rw [List.append_nil] at hsplit
        exact (walk_append_singleton.mp hsplit).1
      have hs' : ∀ z ∈ s, ¬ StrictlyDominates E r z b := fun z hz => hs z (List.mem_cons_of_mem _ hz)
      by_cases huy : StrictlyDominates E r u y
      · -- `u` still dominates the walk
        rcases ih hsplit hu huy.2 hub hs' with hb | hnil
        · exact .inl hb
        · exact absurd (hend hnil ▸ huy) hub
      · have hfrontier : Frontier E r u y := ⟨x, hE, ⟨_, h.of_append⟩, hux, huy⟩
        have hy : IteratedFrontier E r S y := hu.elim (.base · hfrontier) (.step · hfrontier)
        rcases ih hsplit (.inr hy) (.refl y) (hs y List.mem_cons_self) hs' with hb | hnil
        · exact .inl hb
        · exact .inl (hend hnil ▸ hy)

/-- **A walk to the iterated frontier.** -/
theorem iteratedFrontier_of_walk (h : Walk E r (p ++ [x] ++ s) b) (hx : S x) (hne : s ≠ [])
    (hxb : ¬ StrictlyDominates E r x b) (hs : ∀ y ∈ s, ¬ StrictlyDominates E r y b) :
    IteratedFrontier E r S b :=
  (iteratedFrontier_or_nil h (.inl hx) (.refl x) hxb hs).resolve_right hne

end FlowGraph
