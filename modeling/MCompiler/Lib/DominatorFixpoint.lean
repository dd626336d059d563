/-
# Immediate dominators as a fixpoint

The nodes of a flow graph are numbered `0, …, r` with the root last, and every node has
one predecessor `π x` with a larger number.  The parent of a node is set, over and over,
to the nearest common ancestor of its predecessors.  `Inv` is what every step keeps; once
a whole round changes nothing the ancestors are the dominators (`Inv.ancestor_iff`).

The graph may be irreducible.  The tree of the chosen predecessors `π` carries the
argument: parents only move up along it, and the way down from `j` to a node below it
avoids everything above `j`.
-/
import MCompiler.Lib.Dominance
import MCompiler.Lib.ParentTree
import Mathlib.Order.Lattice

namespace DominatorFixpoint

open FlowGraph ParentTree

variable (E : ℕ → ℕ → Prop) (r : ℕ) (π : ℕ → ℕ)

/-- The numbered graph: edges lead between nodes, none leads to the root, and `π` chooses
a predecessor with a larger number. -/
structure Numbered : Prop where
  tree : Climbs π r (· ≤ r)
  edge : ∀ x, x < r → E (π x) x
  le : ∀ p x, E p x → p ≤ r ∧ x < r

/-- The state in a round: the nodes from `m` on have parents, and those from `i` on got
theirs in this round. -/
structure Inv (d : ℕ → ℕ) (m i : ℕ) : Prop where
  bound : m ≤ i ∧ i ≤ r
  climbs : Climbs d r (fun x => m ≤ x ∧ x ≤ r)
  chosen : ∀ x, m ≤ x → x ≤ r → Ancestor π x (d x)
  fresh : ∀ x, i ≤ x → x < r → Ancestor d (π x) (d x)
  least : ∀ x, m ≤ x → x < r → ∀ y, (∀ p, E p x → m ≤ p → Ancestor d p y) → d x ≤ y
  sound : ∀ x, m ≤ x → x ≤ r → ∀ y, Dominates E r y x → Ancestor d x y

/-- `c` is the nearest common ancestor of the predecessors of `j` that have a parent. -/
structure IsCandidate (d : ℕ → ℕ) (m j c : ℕ) : Prop where
  common : ∀ p, E p j → m ≤ p → Ancestor d p c
  nearest : ∀ y, (∀ p, E p j → m ≤ p → Ancestor d p y) → Ancestor d c y

variable {E r π} {d : ℕ → ℕ} {m j c : ℕ}

/-- Only the root has a parent at first. -/
theorem inv_start (hd : d r = r) : Inv E r π d r r where
  bound := ⟨le_rfl, le_rfl⟩
  climbs :=
    { root := ⟨le_rfl, le_rfl⟩
      fix := hd
      le := fun x hx => hx.2
      up := fun x hx hne => absurd (le_antisymm hx.2 hx.1) hne }
  chosen := fun x hmx hxr => by
    rw [le_antisymm hxr hmx, hd]
    exact .refl r
  fresh := fun x hix hxr => absurd hxr (by omega)
  least := fun x hmx hxr => absurd hxr (by omega)
  sound := fun x hmx hxr y hy => by
    have hwalk : Walk E r [x] x := by
      rw [le_antisymm hxr hmx]
      exact .root
    rw [List.mem_singleton.mp (hy _ hwalk)]
    exact .refl x

/-- A new round. -/
theorem Inv.restart {i : ℕ} (h : Inv E r π d m i) : Inv E r π d m r :=
  { h with
    bound := ⟨h.bound.1.trans h.bound.2, le_rfl⟩
    fresh := fun x hix hxr => absurd hxr (by omega) }

/-- Ancestors are also ancestors along the chosen predecessors. -/
theorem Inv.ancestor_chosen {i x y : ℕ} (h : Inv E r π d m i) (hmx : m ≤ x) (hxr : x ≤ r)
    (hxy : Ancestor d x y) : Ancestor π x y := by
  induction hxy with
  | refl => exact .refl _
  | @up x y _ ih =>
      have hdx := h.climbs.closed ⟨hmx, hxr⟩
      exact (h.chosen x hmx hxr).trans (ih hdx.1 hdx.2)

/-- The ancestors of `z` from `y` on, for a node `y` above `z` along the chosen
predecessors, are ancestors of `y`. -/
theorem Inv.ancestor_of_chosen {i y z : ℕ} (hnum : Numbered E r π) (h : Inv E r π d m i)
    (hiz : i ≤ z) (hzr : z ≤ r) (hzy : Ancestor π z y) (hzc : Ancestor d z c) (hyc : y ≤ c) :
    Ancestor d y c := by
  induction hzy with
  | refl => exact hzc
  | @up z y hy ih =>
      by_cases hz : z = r
      · subst hz
        rw [hnum.tree.fix] at hy
        rw [hnum.tree.eq_root hy]
        exact hzc
      · obtain ⟨hπr, hlt⟩ := hnum.tree.up z hzr hz
        have hle := hnum.tree.ancestor_le hπr hy
        rcases ParentTree.ancestor_iff.mp hzc with rfl | hdc
        · omega
        · exact ih (by omega) hπr ((h.fresh z hiz (by omega)).trans hdc) hyc

/-- The way down along the chosen predecessors avoids what is above its start. -/
theorem exists_walk_down {x y : ℕ} (hnum : Numbered E r π) (hxr : x ≤ r) (hjr : j < r)
    (hxj : Ancestor π x j) (hjy : j < y) (hj : ∃ p, Walk E r p j ∧ y ∉ p) :
    ∃ p, Walk E r p x ∧ y ∉ p := by
  induction hxj with
  | refl => exact hj
  | @up x j hxj ih =>
      have hx : x ≠ r := by
        rintro rfl
        rw [hnum.tree.fix] at hxj
        have := hnum.tree.eq_root hxj
        omega
      obtain ⟨hπr, hlt⟩ := hnum.tree.up x hxr hx
      have hle := hnum.tree.ancestor_le hπr hxj
      obtain ⟨p, hp, hy⟩ := ih hπr hjr hjy hj
      refine ⟨p ++ [x], .step hp (hnum.edge x (by omega)), ?_⟩
      simp only [List.mem_append, List.mem_singleton, not_or]
      exact ⟨hy, by omega⟩

/-- The candidate lies above the node. -/
theorem Inv.candidate_mem (hnum : Numbered E r π) (h : Inv E r π d m (j + 1))
    (hc : IsCandidate E d m j c) :
    Ancestor d (π j) c ∧ j < π j ∧ π j ≤ c ∧ c ≤ r := by
  have hjr : j < r := h.bound.2
  obtain ⟨hπr, hlt⟩ := hnum.tree.up j (by omega) (by omega)
  have hmj := h.bound.1
  have hanc := hc.common (π j) (hnum.edge j hjr) (by omega)
  obtain ⟨hcmem, hle⟩ := h.climbs.ancestor_mem ⟨by omega, hπr⟩ hanc
  exact ⟨hanc, hlt, hle, hcmem.2⟩

/-- A parent moves up to one of its ancestors. -/
theorem Inv.ancestor_candidate (hnum : Numbered E r π) (h : Inv E r π d m (j + 1))
    (hc : IsCandidate E d m j c) (hmj : m ≤ j) : Ancestor d (d j) c := by
  have hjr : j < r := h.bound.2
  obtain ⟨hanc, hlt, hle, hcr⟩ := h.candidate_mem hnum hc
  have hge := h.least j hmj hjr c hc.common
  have hup := h.climbs.up j ⟨hmj, hjr.le⟩ hjr.ne
  rcases ParentTree.ancestor_iff.mp (h.chosen j hmj hjr.le) with heq | hπ
  · omega
  · exact h.ancestor_of_chosen hnum hlt (by omega) hπ hanc hge

/-- The ancestors after the step were ancestors before it. -/
theorem Inv.ancestor_of_step (hnum : Numbered E r π) (h : Inv E r π d m (j + 1))
    (hc : IsCandidate E d m j c) {x y : ℕ} (hmx : m ≤ x) (hxr : x ≤ r)
    (hxy : Ancestor (Function.update d j c) x y) : Ancestor d x y := by
  by_cases hmj : m ≤ j
  · exact ancestor_of_update (h.ancestor_candidate hnum hc hmj) hxy
  · exact (ancestor_update_of_lt h.climbs ⟨hmx, hxr⟩ (by omega)).mp hxy

/-- **One step.**  Setting the parent of `j` to the candidate keeps the invariant. -/
theorem Inv.step (hnum : Numbered E r π) (h : Inv E r π d m (j + 1))
    (hc : IsCandidate E d m j c) : Inv E r π (Function.update d j c) (min m j) j := by
  have hjr : j < r := h.bound.2
  have hmj := h.bound.1
  obtain ⟨hanc, hlt, hle, hcr⟩ := h.candidate_mem hnum hc
  -- a node other than `j` had a parent before
  have hold : ∀ {x : ℕ}, min m j ≤ x → x ≠ j → m ≤ x := fun hx hne => by omega
  -- nothing above `j` has changed
  have habove : ∀ {x y : ℕ}, j < x → x ≤ r →
      (Ancestor (Function.update d j c) x y ↔ Ancestor d x y) := fun hx hxr =>
    ancestor_update_of_lt h.climbs ⟨by omega, hxr⟩ hx
  have hsoundj : ∀ y, Dominates E r y j → Ancestor (Function.update d j c) j y := by
    intro y hy
    by_cases hyj : y = j
    · rw [hyj]
      exact .refl j
    · apply Ancestor.up
      rw [Function.update_self]
      refine (habove (by omega) hcr).mpr (hc.nearest y ?_)
      intro p hp hmp
      exact h.sound p hmp (hnum.le p j hp).1 y (StrictlyDominates.of_edge ⟨hyj, hy⟩ hp)
  refine ⟨⟨by omega, hjr.le⟩, ⟨⟨by omega, le_rfl⟩, ?_, fun x hx => hx.2, ?_⟩, ?_, ?_, ?_, ?_⟩
  · rw [Function.update_of_ne (by omega)]
    exact h.climbs.fix
  · intro x hx hne
    by_cases hxj : x = j
    · rw [hxj, Function.update_self]
      exact ⟨⟨by omega, hcr⟩, by omega⟩
    · rw [Function.update_of_ne hxj]
      obtain ⟨hd, hlt'⟩ := h.climbs.up x ⟨hold hx.1 hxj, hx.2⟩ hne
      exact ⟨⟨by omega, hd.2⟩, hlt'⟩
  · intro x hmx hxr
    by_cases hxj : x = j
    · rw [hxj, Function.update_self]
      exact .up (h.ancestor_chosen (by omega) (by omega) hanc)
    · rw [Function.update_of_ne hxj]
      exact h.chosen x (hold hmx hxj) hxr
  · intro x hjx hxr
    obtain ⟨hπr, hltx⟩ := hnum.tree.up x hxr.le hxr.ne
    rw [habove (by omega) hπr]
    by_cases hxj : x = j
    · rw [hxj, Function.update_self]
      exact hanc
    · rw [Function.update_of_ne hxj]
      exact h.fresh x (by omega) hxr
  · intro x hmx hxr y hy
    have hcommon : ∀ p, E p x → m ≤ p → Ancestor d p y := fun p hp hmp =>
      h.ancestor_of_step hnum hc hmp (hnum.le p x hp).1 (hy p hp (by omega))
    by_cases hxj : x = j
    · subst hxj
      rw [Function.update_self]
      exact h.climbs.ancestor_le ⟨by omega, hcr⟩ (hc.nearest y hcommon)
    · rw [Function.update_of_ne hxj]
      exact h.least x (hold hmx hxj) hxr y hcommon
  · intro x hmx hxr y hy
    by_cases hxj : x = j
    · rw [hxj] at hy ⊢
      exact hsoundj y hy
    · have hmx' := hold hmx hxj
      rcases ancestor_update_or (c := c) (h.sound x hmx' hxr y hy) with hxy | ⟨hx, hjy, hne⟩
      · exact hxy
      · -- `y` dominates `j`, or there would be a way around `y` to `x`
        refine hx.trans (hsoundj y ?_)
        have hmj' : m ≤ j := by
          by_contra hlow
          have hxj' := h.climbs.ancestor_le ⟨hmx', hxr⟩ (h.ancestor_of_step hnum hc hmx' hxr hx)
          omega
        have hjy' := h.climbs.lt_of_ancestor ⟨hmj', hjr.le⟩ hjy hne
        have hxj' := h.ancestor_chosen hmx' hxr (h.ancestor_of_step hnum hc hmx' hxr hx)
        by_contra hnot
        obtain ⟨p, hp⟩ := Classical.not_forall.mp hnot
        obtain ⟨hwalk, hyp⟩ := Classical.not_imp.mp hp
        obtain ⟨q, hq, hyq⟩ := exists_walk_down hnum hxr hjr hxj' hjy' ⟨p, hwalk, hyp⟩
        exact hyq (hy q hq)

/-! ## The fixpoint -/

/-- **The fixpoint.**  When no candidate differs from the parent, the ancestors of a node
are its dominators. -/
theorem Inv.ancestor_iff (hnum : Numbered E r π) {i : ℕ} (h : Inv E r π d 0 i)
    (hfix : ∀ j, j < r → IsCandidate E d 0 j (d j)) {x y : ℕ} (hxr : x ≤ r) :
    Ancestor d x y ↔ Dominates E r y x := by
  constructor
  · intro hxy p hp
    induction hp generalizing y with
    | root =>
        rw [h.climbs.eq_root hxy]
        exact List.mem_singleton.mpr rfl
    | @step p a b _ hE ih =>
        rcases ParentTree.ancestor_iff.mp hxy with rfl | hy
        · simp
        · obtain ⟨har, hbr⟩ := hnum.le a b hE
          have ha := ((hfix b hbr).common a hE (Nat.zero_le a)).trans hy
          exact List.mem_append_left _ (ih har ha)
  · exact h.sound x (Nat.zero_le x) hxr y

/-- Then the parents are the immediate dominators. -/
theorem Inv.isIDom (hnum : Numbered E r π) {i : ℕ} (h : Inv E r π d 0 i)
    (hfix : ∀ j, j < r → IsCandidate E d 0 j (d j)) {x : ℕ} (hxr : x < r) :
    IsIDom E r (d x) x := by
  obtain ⟨hdr, hlt⟩ := h.climbs.up x ⟨Nat.zero_le x, hxr.le⟩ hxr.ne
  refine ⟨⟨by omega, (h.ancestor_iff hnum hfix hxr.le).mp (.parent x)⟩, ?_⟩
  rintro c ⟨hne, hc⟩
  rcases ParentTree.ancestor_iff.mp ((h.ancestor_iff hnum hfix hxr.le).mpr hc) with rfl | hdc
  · exact absurd rfl hne
  · exact (h.ancestor_iff hnum hfix hdr.2).mp hdc

end DominatorFixpoint
