/-
# Dominance in a flow graph

A flow graph is a relation `E` on nodes with a root `r`.  Nothing here is about a
program or an algorithm.

* `Walk E r p b` : `p` lists the nodes of a walk from the root to `b`;
* `Dominates E r d b` : every walk to `b` meets `d`;
* `IsIDom E r d b` : `d` is the strict dominator of `b` that all others dominate;
* `Frontier`, `IteratedFrontier` : dominance frontiers.

The order facts (`Dominates.trans`, `Dominates.antisymm`, `Dominates.total`) come from
cutting walks (`Walk.prefix_of_mem`) and joining them (`Walk.splice`).
-/
import Mathlib.Data.List.Infix
import Mathlib.Data.List.Nodup
import Mathlib.Tactic.Common

namespace FlowGraph

variable {α : Type*} (E : α → α → Prop) (r : α)

/-- A walk from the root, as the list of its nodes. -/
inductive Walk : List α → α → Prop
  | root : Walk [r] r
  | step {p : List α} {a b : α} : Walk p a → E a b → Walk (p ++ [b]) b

/-- There is a walk to `b`. -/
def Reachable (b : α) : Prop := ∃ p, Walk E r p b

/-- Every walk to `b` meets `d`. -/
def Dominates (d b : α) : Prop := ∀ p, Walk E r p b → d ∈ p

/-- A dominator that is another node. -/
def StrictlyDominates (d b : α) : Prop := d ≠ b ∧ Dominates E r d b

/-- The immediate dominator: the strict dominator that all strict dominators dominate. -/
structure IsIDom (d b : α) : Prop where
  strict : StrictlyDominates E r d b
  least : ∀ c, StrictlyDominates E r c b → Dominates E r c d

variable {E r} {p q : List α} {a b c d : α}

/-! ## Walks -/

theorem Walk.last (h : Walk E r p b) : ∃ q, p = q ++ [b] := by
  cases h with
  | root => exact ⟨[], rfl⟩
  | step h _ => exact ⟨_, rfl⟩

/-- The end of a walk. -/
theorem walk_append_singleton : Walk E r (q ++ [c]) b ↔
    c = b ∧ ((q = [] ∧ b = r) ∨ ∃ a, Walk E r q a ∧ E a b) := by
  constructor
  · intro h
    generalize hw : q ++ [c] = w at h
    cases h with
    | root =>
        obtain ⟨hq, hc⟩ := List.append_inj' (hw.trans (List.nil_append [r]).symm) rfl
        exact ⟨List.singleton_inj.mp hc, .inl ⟨hq, rfl⟩⟩
    | step h hE =>
        obtain ⟨rfl, hc⟩ := List.append_inj' hw rfl
        exact ⟨List.singleton_inj.mp hc, .inr ⟨_, h, hE⟩⟩
  · rintro ⟨rfl, ⟨rfl, rfl⟩ | ⟨a, h, hE⟩⟩
    · exact .root
    · exact .step h hE

theorem Walk.mem (h : Walk E r p b) : b ∈ p := by
  obtain ⟨q, rfl⟩ := h.last
  simp

theorem Walk.root_mem (h : Walk E r p b) : r ∈ p := by
  induction h with
  | root => simp
  | step _ _ ih => exact List.mem_append_left _ ih

/-- Cutting a walk at a node on it. -/
theorem Walk.prefix_of_mem (h : Walk E r p b) (hc : c ∈ p) : ∃ q, Walk E r q c ∧ q <+: p := by
  induction h with
  | root =>
      rw [List.mem_singleton.mp hc]
      exact ⟨_, .root, List.prefix_refl _⟩
  | step h hE ih =>
      rcases List.mem_append.mp hc with hc | hc
      · obtain ⟨q, hq, hpre⟩ := ih hc
        exact ⟨q, hq, hpre.trans (List.prefix_append _ _)⟩
      · rw [List.mem_singleton.mp hc]
        exact ⟨_, .step h hE, List.prefix_refl _⟩

/-- A walk to `b` that meets `b` only at its end. -/
theorem Walk.first (h : Walk E r p b) : ∃ q, Walk E r (q ++ [b]) b ∧ b ∉ q := by
  obtain ⟨n, hn⟩ : ∃ n, p.length ≤ n := ⟨_, le_rfl⟩
  induction n generalizing p with
  | zero =>
      obtain ⟨q, rfl⟩ := h.last
      simp at hn
  | succ n ih =>
      obtain ⟨q, rfl⟩ := h.last
      by_cases hb : b ∈ q
      · obtain ⟨-, ⟨rfl, -⟩ | ⟨a, h', -⟩⟩ := walk_append_singleton.mp h
        · cases hb
        · obtain ⟨q', hq', hpre⟩ := h'.prefix_of_mem hb
          have hlen := hpre.length_le
          rw [List.length_append, List.length_singleton] at hn
          exact ih hq' (by omega)
      · exact ⟨q, h, hb⟩

/-- Another way to a node on a walk. -/
theorem Walk.splice {s : List α} (h : Walk E r (p ++ [c] ++ s) b) (hq : Walk E r q c) :
    Walk E r (q ++ s) b := by
  induction s using List.reverseRecOn generalizing b with
  | nil =>
      rw [List.append_nil] at h ⊢
      rwa [← (walk_append_singleton.mp h).1]
  | append_singleton s x ih =>
      rw [← List.append_assoc] at h ⊢
      obtain ⟨rfl, ⟨hnil, -⟩ | ⟨a, h', hE⟩⟩ := walk_append_singleton.mp h
      · simp at hnil
      · exact .step (ih h') hE

theorem Reachable.root : Reachable E r r := ⟨_, .root⟩

theorem Reachable.step (h : Reachable E r a) (hE : E a b) : Reachable E r b := by
  obtain ⟨p, hp⟩ := h
  exact ⟨_, .step hp hE⟩

/-- A walk without repetitions. -/
theorem Reachable.exists_nodup (h : Reachable E r b) : ∃ p, Walk E r p b ∧ p.Nodup := by
  obtain ⟨p, hp⟩ := h
  induction hp with
  | root => exact ⟨_, .root, List.nodup_singleton r⟩
  | @step _ a b _ hE ih =>
      obtain ⟨q, hq, hnodup⟩ := ih
      by_cases hb : b ∈ q
      · obtain ⟨q', hq', hpre⟩ := hq.prefix_of_mem hb
        exact ⟨q', hq', hnodup.sublist hpre.sublist⟩
      · refine ⟨_, .step hq hE, hnodup.append (List.nodup_singleton b) ?_⟩
        intro x hx hx'
        exact hb (List.mem_singleton.mp hx' ▸ hx)

/-! ## Dominance is an order -/

theorem Dominates.refl (b : α) : Dominates E r b b := fun _ h => h.mem

theorem dominates_root (b : α) : Dominates E r r b := fun _ h => h.root_mem

theorem Dominates.trans (hdc : Dominates E r d c) (hcb : Dominates E r c b) :
    Dominates E r d b := by
  intro p hp
  obtain ⟨q, hq, hpre⟩ := hp.prefix_of_mem (hcb p hp)
  exact hpre.subset (hdc q hq)

theorem Dominates.reachable (hdb : Dominates E r d b) (hb : Reachable E r b) :
    Reachable E r d := by
  obtain ⟨p, hp⟩ := hb
  obtain ⟨q, hq, -⟩ := hp.prefix_of_mem (hdb p hp)
  exact ⟨q, hq⟩

theorem Dominates.antisymm (hb : Reachable E r b) (hdb : Dominates E r d b)
    (hbd : Dominates E r b d) : d = b := by
  by_contra hne
  obtain ⟨p, hp⟩ := hb
  obtain ⟨q, hq, hnot⟩ := hp.first
  rcases List.mem_append.mp (hdb _ hq) with hd | hd
  · -- the part of the walk up to `d` would meet `b`
    obtain ⟨-, ⟨rfl, -⟩ | ⟨a, h', -⟩⟩ := walk_append_singleton.mp hq
    · cases hd
    · obtain ⟨q', hq', hpre⟩ := h'.prefix_of_mem hd
      exact hnot (hpre.subset (hbd _ hq'))
  · exact hne (List.mem_singleton.mp hd)

/-- A list cut at the last element that is `c` or `d`. -/
theorem exists_last_split [DecidableEq α] {p : List α} (hc : c ∈ p) :
    ∃ x p₁ p₂, p = p₁ ++ [x] ++ p₂ ∧ (x = c ∨ x = d) ∧ c ∉ p₂ ∧ d ∉ p₂ := by
  induction p using List.reverseRecOn with
  | nil => cases hc
  | append_singleton p y ih =>
      by_cases hy : y = c ∨ y = d
      · exact ⟨y, p, [], by simp, hy, by simp, by simp⟩
      · rw [not_or] at hy
        have hcp : c ∈ p := by
          rcases List.mem_append.mp hc with h | h
          · exact h
          · exact absurd (List.mem_singleton.mp h).symm hy.1
        obtain ⟨x, p₁, p₂, rfl, hx, hc2, hd2⟩ := ih hcp
        refine ⟨x, p₁, p₂ ++ [y], by simp, hx, ?_, ?_⟩
        · simpa using ⟨hc2, Ne.symm hy.1⟩
        · simpa using ⟨hd2, Ne.symm hy.2⟩

/-- **The dominators of a node form a chain.** -/
theorem Dominates.total [DecidableEq α] (hb : Reachable E r b) (hcb : Dominates E r c b)
    (hdb : Dominates E r d b) : Dominates E r c d ∨ Dominates E r d c := by
  by_contra hnot
  rw [not_or] at hnot
  obtain ⟨⟨q₁, hq₁⟩, ⟨q₂, hq₂⟩⟩ :=
    And.intro (Classical.not_forall.mp hnot.1) (Classical.not_forall.mp hnot.2)
  rw [Classical.not_imp] at hq₁ hq₂
  obtain ⟨p, hp⟩ := hb
  obtain ⟨x, p₁, p₂, rfl, hx, hc2, hd2⟩ := exists_last_split (c := c) (d := d) (hcb p hp)
  rcases hx with rfl | rfl
  · -- reach `c` without `d`, then go on to `b`
    rcases List.mem_append.mp (hdb _ (hp.splice hq₂.1)) with h | h
    · exact hq₂.2 h
    · exact hd2 h
  · rcases List.mem_append.mp (hcb _ (hp.splice hq₁.1)) with h | h
    · exact hq₁.2 h
    · exact hc2 h

/-! ## Dominance along edges -/

/-- A strict dominator of `b` dominates the predecessors of `b`. -/
theorem StrictlyDominates.of_edge (h : StrictlyDominates E r d b) (hE : E a b) :
    Dominates E r d a := by
  intro p hp
  rcases List.mem_append.mp (h.2 _ (.step hp hE)) with hd | hd
  · exact hd
  · exact absurd (List.mem_singleton.mp hd) h.1

/-- What dominates all reachable predecessors of `b` dominates `b`. -/
theorem dominates_of_edges (hr : b ≠ r)
    (h : ∀ a, Reachable E r a → E a b → Dominates E r d a) : Dominates E r d b := by
  intro p hp
  cases hp with
  | root => exact absurd rfl hr
  | step hp' hE => exact List.mem_append_left _ (h _ ⟨_, hp'⟩ hE _ hp')

/-- The only way into a region dominates its nodes. -/
theorem dominates_of_region {R : α → Prop} (hr : ¬ R r)
    (hedge : ∀ a b, E a b → R b → a = d ∨ R a) (hb : R b) : Dominates E r d b := by
  intro p hp
  induction hp with
  | root => exact absurd hb hr
  | @step q a x hq hE ih =>
      rcases hedge a x hE hb with rfl | ha
      · exact List.mem_append_left _ hq.mem
      · exact List.mem_append_left _ (ih ha)

/-- A region without a way into it. -/
theorem not_reachable_of_region {R : α → Prop} (hr : ¬ R r)
    (hedge : ∀ a b, E a b → R b → R a) (hb : R b) : ¬ Reachable E r b := by
  rintro ⟨p, hp⟩
  induction hp with
  | root => exact hr hb
  | @step q a x hq hE ih => exact ih (hedge a x hE hb)

/-- A dominator of a strict dominator is a strict dominator. -/
theorem StrictlyDominates.trans (hb : Reachable E r b) (hdc : Dominates E r d c)
    (hcb : StrictlyDominates E r c b) : StrictlyDominates E r d b := by
  refine ⟨?_, hdc.trans hcb.2⟩
  rintro rfl
  exact hcb.1 (hcb.2.antisymm hb hdc)

/-! ## Immediate dominators -/

theorem IsIDom.unique (hb : Reachable E r b) (hc : IsIDom E r c b) (hd : IsIDom E r d b) :
    c = d :=
  Dominates.antisymm (hd.strict.2.reachable hb) (hd.least c hc.strict) (hc.least d hd.strict)

/-- **A chain of dominators.**  If a walk to each node stays, along every edge, within the walk
to the edge's source and the target, its nodes are the dominators. -/
theorem dominates_iff_of_chain {chain : α → List α} (hroot : chain r = [r])
    (hedge : ∀ a b, Reachable E r a → E a b → chain b ⊆ chain a ++ [b])
    (hb : Walk E r (chain b) b) : Dominates E r d b ↔ d ∈ chain b := by
  refine ⟨fun h => h _ hb, fun hd p hp => ?_⟩
  clear hb
  induction hp with
  | root => rwa [hroot] at hd
  | @step p a b hp hE ih =>
      rcases List.mem_append.mp (hedge a b ⟨p, hp⟩ hE hd) with hd | hd
      · exact List.mem_append_left _ (ih hd)
      · exact List.mem_append_right _ hd

/-- A predecessor that dominates all predecessors is the immediate dominator. -/
theorem IsIDom.of_edge (hr : b ≠ r) (hE : E d b) (hne : d ≠ b)
    (h : ∀ a, Reachable E r a → E a b → Dominates E r d a) : IsIDom E r d b :=
  ⟨⟨hne, dominates_of_edges hr h⟩, fun _ hc => hc.of_edge hE⟩

/-- A strict dominator of `b` dominates its immediate dominator, and a dominator of `b`
is `b` or dominates it. -/
theorem IsIDom.dominates_iff (h : IsIDom E r d b) :
    Dominates E r c b ↔ c = b ∨ Dominates E r c d := by
  constructor
  · intro hc
    by_cases heq : c = b
    · exact .inl heq
    · exact .inr (h.least c ⟨heq, hc⟩)
  · rintro (rfl | hc)
    · exact .refl _
    · exact hc.trans h.strict.2

/-- The strict dominators of a node are the dominators of its immediate dominator. -/
theorem IsIDom.strictlyDominates_iff (hb : Reachable E r b) (h : IsIDom E r d b) :
    StrictlyDominates E r c b ↔ Dominates E r c d := by
  refine ⟨h.least c, fun hc => ⟨?_, hc.trans h.strict.2⟩⟩
  rintro rfl
  exact h.strict.1 (h.strict.2.antisymm hb hc)

/-- A walk to a node passes a strict dominator before its end. -/
theorem StrictlyDominates.exists_shorter (h : StrictlyDominates E r d b) (hp : Walk E r p b) :
    ∃ q, Walk E r q d ∧ q.length < p.length := by
  obtain ⟨q, hq, hpre⟩ := hp.prefix_of_mem (h.2 p hp)
  refine ⟨q, hq, Nat.lt_of_le_of_ne hpre.length_le fun hlen => ?_⟩
  obtain ⟨q', rfl⟩ := hq.last
  obtain ⟨p', rfl⟩ := hp.last
  have heq := hpre.eq_of_length hlen
  exact h.1 (List.singleton_inj.mp (List.append_inj' heq rfl).2)

/-- **Induction over dominators**: what holds of a node when it holds of its strict dominators
holds of every reachable node. -/
theorem Reachable.dominator_induction {motive : ∀ b, Reachable E r b → Prop}
    (step : ∀ b (hb : Reachable E r b), (∀ d (hd : StrictlyDominates E r d b),
      motive d (hd.2.reachable hb)) → motive b hb) (b : α) (hb : Reachable E r b) :
    motive b hb := by
  obtain ⟨p, hp⟩ := hb
  obtain ⟨n, hn⟩ : ∃ n, p.length < n := ⟨_, Nat.lt_succ_self _⟩
  induction n generalizing b p with
  | zero => exact absurd hn (Nat.not_lt_zero _)
  | succ n ih =>
      refine step b ⟨p, hp⟩ fun d hd => ?_
      obtain ⟨q, hq, hlen⟩ := hd.exists_shorter hp
      exact ih d q hq (Nat.lt_of_lt_of_le hlen (Nat.le_of_lt_succ hn))

/-! ## Renaming the nodes -/

section Map

variable {β : Type*} {E' : β → β → Prop} {r' : β} {f : α → β} (hr : f r = r')
  (hE : ∀ a b, Reachable E r a → E a b → E' (f a) (f b))
include hr hE

theorem Walk.map (h : Walk E r p b) : Walk E' r' (p.map f) (f b) := by
  induction h with
  | root =>
      rw [List.map_singleton, hr]
      exact .root
  | step h hab ih =>
      rw [List.map_append, List.map_singleton]
      exact .step ih (hE _ _ ⟨_, h⟩ hab)

/-- Dominance among the images of the nodes. -/
theorem Dominates.of_map (hinj : ∀ a, Reachable E r a → f a = f d → a = d)
    (h : Dominates E' r' (f d) (f b)) : Dominates E r d b := by
  intro p hp
  obtain ⟨a, ha, heq⟩ := List.mem_map.mp (h _ (hp.map hr hE))
  obtain ⟨q, hq, -⟩ := hp.prefix_of_mem ha
  rwa [← hinj a ⟨q, hq⟩ heq]

end Map

/-! ## Another relation with the same edges -/

section Congr

variable {E' : α → α → Prop} (h : ∀ a, Reachable E r a → ∀ b, E a b ↔ E' a b)
include h

theorem walk_congr : Walk E r p b ↔ Walk E' r p b := by
  constructor
  · intro hp
    induction hp with
    | root => exact .root
    | step hp hE ih => exact .step ih ((h _ ⟨_, hp⟩ _).mp hE)
  · intro hp
    induction hp with
    | root => exact .root
    | step _ hE ih => exact .step ih ((h _ ⟨_, ih⟩ _).mpr hE)

theorem reachable_congr : Reachable E r b ↔ Reachable E' r b :=
  exists_congr fun _ => walk_congr h

theorem dominates_congr : Dominates E r d b ↔ Dominates E' r d b :=
  forall_congr' fun _ => imp_congr (walk_congr h) Iff.rfl

end Congr

/-! ## Without the edges to the root -/

/-- The part of a walk after its last visit of the root. -/
theorem Walk.cut (h : Walk E r p b) :
    ∃ q, Walk (fun a b => E a b ∧ b ≠ r) r q b ∧ q ⊆ p := by
  induction h with
  | root => exact ⟨[r], .root, List.Subset.refl _⟩
  | @step p a b hp hE ih =>
      obtain ⟨q, hq, hsub⟩ := ih
      by_cases hb : b = r
      · rw [hb]
        exact ⟨[r], .root, List.subset_append_right _ _⟩
      · refine ⟨q ++ [b], .step hq ⟨hE, hb⟩, List.append_subset.mpr ⟨?_, ?_⟩⟩
        · exact List.Subset.trans hsub (List.subset_append_left _ _)
        · exact List.subset_append_right _ _

theorem Walk.of_cut (h : Walk (fun a b => E a b ∧ b ≠ r) r p b) : Walk E r p b := by
  induction h with
  | root => exact .root
  | step _ hE ih => exact .step ih hE.1

theorem reachable_cut : Reachable (fun a b => E a b ∧ b ≠ r) r b ↔ Reachable E r b := by
  constructor
  · rintro ⟨p, hp⟩
    exact ⟨p, hp.of_cut⟩
  · rintro ⟨p, hp⟩
    obtain ⟨q, hq, -⟩ := hp.cut
    exact ⟨q, hq⟩

/-- Edges to the root have no part in dominance. -/
theorem dominates_cut : Dominates (fun a b => E a b ∧ b ≠ r) r d b ↔ Dominates E r d b := by
  constructor
  · intro h p hp
    obtain ⟨q, hq, hsub⟩ := hp.cut
    exact hsub (h q hq)
  · exact fun h p hp => h p hp.of_cut

theorem isIDom_cut : IsIDom (fun a b => E a b ∧ b ≠ r) r d b ↔ IsIDom E r d b := by
  have hstrict : ∀ c, StrictlyDominates (fun a b => E a b ∧ b ≠ r) r c b ↔
      StrictlyDominates E r c b := fun c => and_congr Iff.rfl dominates_cut
  constructor
  · rintro ⟨hd, hleast⟩
    exact ⟨(hstrict d).mp hd, fun c hc => dominates_cut.mp (hleast c ((hstrict c).mpr hc))⟩
  · rintro ⟨hd, hleast⟩
    exact ⟨(hstrict d).mpr hd, fun c hc => dominates_cut.mpr (hleast c ((hstrict c).mp hc))⟩

/-! ## Dominance frontiers -/

variable (E r) in
/-- The dominance frontier of `b`: the nodes with a predecessor that `b` dominates which
`b` does not strictly dominate. -/
def Frontier (b y : α) : Prop :=
  ∃ a, E a y ∧ Reachable E r a ∧ Dominates E r b a ∧ ¬ StrictlyDominates E r b y

variable (E r) in
/-- The iterated dominance frontier of a set of nodes. -/
inductive IteratedFrontier (S : α → Prop) : α → Prop
  | base {b y : α} : S b → Frontier E r b y → IteratedFrontier S y
  | step {b y : α} : IteratedFrontier S b → Frontier E r b y → IteratedFrontier S y

/-- The iterated frontier of no nodes is empty. -/
theorem IteratedFrontier.exists_start {S : α → Prop} {y : α} (h : IteratedFrontier E r S y) :
    ∃ b, S b := by
  induction h with
  | base hb _ => exact ⟨_, hb⟩
  | step _ _ ih => exact ih

/-- What is on the iterated frontier of reachable nodes is on the frontier of a reachable node. -/
theorem IteratedFrontier.exists_frontier {S : α → Prop} {y : α} (h : IteratedFrontier E r S y)
    (hS : ∀ b, S b → Reachable E r b) : ∃ b, Reachable E r b ∧ Frontier E r b y := by
  cases h with
  | base hb hy => exact ⟨_, hS _ hb, hy⟩
  | step _ hy =>
      have hy' := hy
      obtain ⟨a, -, ha, hdom, -⟩ := hy'
      exact ⟨_, hdom.reachable ha, hy⟩

end FlowGraph
