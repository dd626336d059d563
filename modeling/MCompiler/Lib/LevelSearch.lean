/-
# Search by levels

The nodes of a level that have not been seen are visited, and the nodes they lead to are
the next level, which may have repetitions and nodes that have been seen.  The search ends
at an empty level.

* `search_visits` : if finitely many nodes can be reached the search ends, and it has
  visited each of these once and no others;
* `nextLevels_iff` : the levels have at most so many nodes exactly if the nodes at a distance
  from the root lead to at most so many.
-/
import Mathlib.Data.Finset.Card
import Mathlib.Data.List.Flatten
import Mathlib.Data.List.Nodup
import MCompiler.Lib.Dominance

namespace LevelSearch

open FlowGraph

variable {α : Type*} [DecidableEq α] (next : α → List α)

/-- The nodes visited so far, in this order, and the next level. -/
structure State (α : Type*) where
  seen : List α
  found : List α

/-- The visit of a node. -/
def visit (s : State α) (a : α) : State α :=
  if a ∈ s.seen then s else ⟨s.seen ++ [a], s.found ++ next a⟩

/-- The loop over the levels. -/
def search : ℕ → List α → List α → Option (List α)
  | 0, _, _ => none
  | n + 1, level, seen =>
      if level = [] then some seen
      else
        let s := level.foldl (visit next) ⟨seen, []⟩
        search n s.found s.seen

variable {next}

/-- What has been seen stays, in this order. -/
theorem seen_prefix_visit (s : State α) (a : α) : s.seen <+: (visit next s a).seen := by
  unfold visit
  split
  · exact List.prefix_rfl
  · exact List.prefix_append _ _

theorem seen_prefix_foldl (level : List α) (s : State α) :
    s.seen <+: (level.foldl (visit next) s).seen := by
  induction level generalizing s with
  | nil => exact List.prefix_rfl
  | cons a level ih => exact (seen_prefix_visit s a).trans (ih _)

theorem seen_prefix_search (n : ℕ) : ∀ {level seen visited : List α},
    search next n level seen = some visited → seen <+: visited := by
  induction n with
  | zero =>
      intro level seen visited h
      cases h
  | succ n ih =>
      intro level seen visited h
      rw [search] at h
      split at h
      · exact Option.some.inj h ▸ List.prefix_rfl
      · exact (seen_prefix_foldl level ⟨seen, []⟩).trans (ih h)

/-- From `s` to `s'` the nodes of a level have been visited. -/
structure Visited (next : α → List α) (s : State α) (level : List α) (s' : State α) : Prop where
  nodup : s.seen.Nodup → s'.seen.Nodup
  seen : ∀ a, a ∈ s'.seen ↔ a ∈ s.seen ∨ a ∈ level
  found : ∀ b, b ∈ s'.found → b ∈ s.found ∨ ∃ a ∈ level, b ∈ next a
  keeps : ∀ b ∈ s.found, b ∈ s'.found
  closed : ∀ a ∈ s'.seen, a ∉ s.seen → ∀ b ∈ next a, b ∈ s'.found
  grows : s' = s ∨ s.seen.length < s'.seen.length

theorem visited_foldl (level : List α) (s : State α) :
    Visited next s level (level.foldl (visit next) s) := by
  induction level generalizing s with
  | nil =>
      exact ⟨id, by simp, fun b hb => .inl hb, fun b hb => hb, fun a ha hnot => absurd ha hnot,
        .inl rfl⟩
  | cons a level ih =>
      rw [List.foldl_cons]
      have h := ih (visit next s a)
      by_cases ha : a ∈ s.seen
      · -- nothing happens
        have hsame : visit next s a = s := if_pos ha
        rw [hsame] at h ⊢
        refine ⟨h.nodup, fun b => ?_, fun b hb => ?_, h.keeps, h.closed, h.grows⟩
        · rw [h.seen, List.mem_cons]
          constructor
          · exact Or.imp_right .inr
          · rintro (hb | rfl | hb)
            · exact .inl hb
            · exact .inl ha
            · exact .inr hb
        · refine (h.found b hb).imp_right ?_
          exact fun ⟨c, hc, hcb⟩ => ⟨c, List.mem_cons_of_mem _ hc, hcb⟩
      · have hnew : visit next s a = ⟨s.seen ++ [a], s.found ++ next a⟩ := if_neg ha
        rw [hnew] at h ⊢
        refine ⟨fun hnodup => h.nodup ?_, fun b => ?_, fun b hb => ?_, fun b hb => ?_,
          fun c hc hnot b hb => ?_, .inr ?_⟩
        · refine List.nodup_append.mpr ⟨hnodup, List.nodup_singleton a, ?_⟩
          rintro c hc d hd rfl
          exact ha (List.mem_singleton.mp hd ▸ hc)
        · rw [h.seen, List.mem_append, List.mem_singleton, List.mem_cons, or_assoc]
        · rcases h.found b hb with hb | ⟨c, hc, hcb⟩
          · rcases List.mem_append.mp hb with hb | hb
            · exact .inl hb
            · exact .inr ⟨a, List.mem_cons_self, hb⟩
          · exact .inr ⟨c, List.mem_cons_of_mem _ hc, hcb⟩
        · exact h.keeps b (List.mem_append_left _ hb)
        · by_cases hca : c = a
          · subst hca
            exact h.keeps b (List.mem_append_right _ hb)
          · refine h.closed c hc ?_ b hb
            simpa [hca] using hnot
        · have hone : (s.seen ++ [a]).length = s.seen.length + 1 := by simp
          rcases h.grows with heq | hlt
          · rw [heq]
            exact hone.ge
          · dsimp only at hlt
            omega

/-- Between levels: what has been seen can be reached, and leads to what has been seen or
is in the next level. -/
structure Inv (next : α → List α) (root : α) (level seen : List α) : Prop where
  nodup : seen.Nodup
  reachable : ∀ a, a ∈ seen ∨ a ∈ level → Reachable (fun a b => b ∈ next a) root a
  closed : ∀ a ∈ seen, ∀ b ∈ next a, b ∈ seen ∨ b ∈ level
  root : root ∈ seen ∨ root ∈ level

section Inv

variable {root : α} {level seen : List α}

omit [DecidableEq α] in
theorem Inv.start (root : α) : Inv next root [root] [] where
  nodup := List.nodup_nil
  reachable a ha := by
    rcases ha with ha | ha
    · cases ha
    · rw [List.mem_singleton.mp ha]
      exact .root
  closed a ha := by cases ha
  root := .inr List.mem_cons_self

/-- One level. -/
theorem Inv.step (h : Inv next root level seen) :
    Inv next root (level.foldl (visit next) ⟨seen, []⟩).found
      (level.foldl (visit next) ⟨seen, []⟩).seen := by
  have hvisited : Visited next _ level _ := visited_foldl level ⟨seen, []⟩
  generalize level.foldl (visit next) ⟨seen, []⟩ = s at hvisited
  have hseen : ∀ a, a ∈ s.seen ↔ a ∈ seen ∨ a ∈ level := hvisited.seen
  refine ⟨hvisited.nodup h.nodup, fun a ha => ?_, fun a ha b hb => ?_, .inl ?_⟩
  · rcases ha with ha | ha
    · exact h.reachable a ((hseen a).mp ha)
    · rcases hvisited.found a ha with hnil | ⟨c, hc, hca⟩
      · cases hnil
      · exact (h.reachable c (.inr hc)).step hca
  · by_cases hold : a ∈ seen
    · exact .inl ((hseen b).mpr (h.closed a hold b hb))
    · exact .inr (hvisited.closed a ha hold b hb)
  · exact (hseen root).mpr h.root

omit [DecidableEq α] in
/-- At an empty level everything has been seen. -/
theorem Inv.mem_iff (h : Inv next root [] seen) (a : α) :
    a ∈ seen ↔ Reachable (fun a b => b ∈ next a) root a := by
  constructor
  · exact fun ha => h.reachable a (.inl ha)
  · rintro ⟨p, hp⟩
    induction hp with
    | root => exact h.root.resolve_right List.not_mem_nil
    | step _ hE ih => exact (h.closed _ ih _ hE).resolve_right List.not_mem_nil

/-- **The loop ends**: a level either visits a node or is the last but one. -/
theorem search_inv (nodes : List α)
    (hnodes : ∀ a, Reachable (fun a b => b ∈ next a) root a → a ∈ nodes) (n : ℕ) :
    ∀ level seen, Inv next root level seen → nodes.length + 2 ≤ n + seen.length →
      ∃ visited, search next n level seen = some visited ∧ Inv next root [] visited := by
  have hbound : ∀ {level seen}, Inv next root level seen → seen.length ≤ nodes.length := by
    intro level seen h
    rw [← List.toFinset_card_of_nodup h.nodup]
    refine le_trans (Finset.card_le_card ?_) nodes.toFinset_card_le
    intro a ha
    rw [List.mem_toFinset] at ha ⊢
    exact hnodes a (h.reachable a (.inl ha))
  induction n with
  | zero =>
      intro level seen h hle
      have hmax := hbound h
      omega
  | succ n ih =>
      intro level seen h hle
      rw [search]
      by_cases hlevel : level = []
      · rw [if_pos hlevel]
        exact ⟨seen, rfl, hlevel ▸ h⟩
      · rw [if_neg hlevel]
        dsimp only
        rcases (@visited_foldl _ _ next level ⟨seen, []⟩).grows with heq | hlt
        · -- the next level is empty
          rw [heq]
          have hstep := h.step
          rw [heq] at hstep
          have hmax := hbound h
          obtain ⟨n, rfl⟩ : ∃ m, n = m + 1 := ⟨n - 1, by omega⟩
          exact ⟨seen, by rw [search, if_pos rfl], hstep⟩
        · refine ih _ _ h.step ?_
          dsimp only at hlt
          omega

end Inv

/-- More steps do not change the result. -/
theorem search_mono (n : ℕ) : ∀ level seen visited, search next n level seen = some visited →
    ∀ m, n ≤ m → search next m level seen = some visited := by
  induction n with
  | zero =>
      intro level seen visited h
      cases h
  | succ n ih =>
      intro level seen visited h m hm
      obtain ⟨m, rfl⟩ : ∃ k, m = k + 1 := ⟨m - 1, by omega⟩
      rw [search] at h ⊢
      by_cases hlevel : level = []
      · rw [if_pos hlevel] at h ⊢
        exact h
      · rw [if_neg hlevel] at h ⊢
        exact ih _ _ visited h m (by omega)

/-- The nodes in the order in which the search visits them. -/
def IsOrder (next : α → List α) (root : α) (order : List α) : Prop :=
  ∃ n, search next n [root] [] = some order

theorem IsOrder.eq {root : α} {order order' : List α} (h : IsOrder next root order)
    (h' : IsOrder next root order') : order = order' := by
  obtain ⟨n, hn⟩ := h
  obtain ⟨m, hm⟩ := h'
  have hn' := search_mono n _ _ _ hn (max n m) (Nat.le_max_left n m)
  have hm' := search_mono m _ _ _ hm (max n m) (Nat.le_max_right n m)
  exact Option.some.inj (hn'.symm.trans hm')

/-- **The search** visits every node that can be reached once, and no others. -/
theorem search_visits (root : α) (nodes : List α)
    (hnodes : ∀ a, Reachable (fun a b => b ∈ next a) root a → a ∈ nodes) :
    ∃ visited : List α, visited.Nodup ∧
      (∀ a, a ∈ visited ↔ Reachable (fun a b => b ∈ next a) root a) ∧
      ∀ n, nodes.length + 2 ≤ n → search next n [root] [] = some visited := by
  obtain ⟨visited, hsearch, hinv⟩ := search_inv nodes hnodes (nodes.length + 2) [root] []
    (.start root) (Nat.le_refl _)
  exact ⟨visited, hinv.nodup, hinv.mem_iff, search_mono _ _ _ _ hsearch⟩

/-! ## The size of the levels -/

/-- Every level that is found is accepted by `p`. -/
def NextLevels (next : α → List α) (p : List α → Prop) : ℕ → List α → List α → Prop
  | 0, _, _ => True
  | n + 1, level, seen =>
      if level = [] then True
      else
        let s := level.foldl (visit next) ⟨seen, []⟩
        p s.found ∧ NextLevels next p n s.found s.seen

instance instDecidableNextLevels {p : List α → Prop} [DecidablePred p] : ∀ n level seen,
    Decidable (NextLevels next p n level seen)
  | 0, _, _ => inferInstanceAs (Decidable True)
  | n + 1, level, seen =>
      have : Decidable (NextLevels next p n (level.foldl (visit next) ⟨seen, []⟩).found
          (level.foldl (visit next) ⟨seen, []⟩).seen) := instDecidableNextLevels n _ _
      inferInstanceAs (Decidable (if level = [] then True else _ ∧ _))

section Distance

omit [DecidableEq α]

/-- `a` can be reached from the root in `n` steps. -/
inductive ReachedIn (next : α → List α) (root : α) : ℕ → α → Prop
  | root : ReachedIn next root 0 root
  | step {n : ℕ} {a b : α} (h : ReachedIn next root n a) (hab : b ∈ next a) :
      ReachedIn next root (n + 1) b

/-- `a` can be reached from the root in `n` steps, but not in fewer. -/
def AtDistance (next : α → List α) (root : α) (n : ℕ) (a : α) : Prop :=
  ReachedIn next root n a ∧ ∀ m < n, ¬ ReachedIn next root m a

/-- The nodes at any distance lead to at most `k` nodes, counted with repetitions. -/
def LevelsWithin (next : α → List α) (root : α) (k : ℕ) : Prop :=
  ∀ (n : ℕ) (nodes : List α), nodes.Nodup → (∀ a ∈ nodes, AtDistance next root n a) →
    (nodes.flatMap next).length ≤ k

variable {root : α}

/-- A node on the way. -/
theorem AtDistance.before {n : ℕ} {b : α} (h : AtDistance next root (n + 1) b) :
    ∃ a, AtDistance next root n a ∧ b ∈ next a := by
  obtain ⟨hin, hnot⟩ := h
  cases hin with
  | step hin hab => exact ⟨_, ⟨hin, fun m hm hless => hnot (m + 1) (by omega) (hless.step hab)⟩, hab⟩

theorem AtDistance.exists_le {n m : ℕ} (hle : n ≤ m) {b : α} (h : AtDistance next root m b) :
    ∃ a, AtDistance next root n a := by
  induction m, hle using Nat.le_induction generalizing b with
  | base => exact ⟨b, h⟩
  | succ m _ ih =>
      obtain ⟨a, ha, -⟩ := h.before
      exact ih ha

end Distance

/-- The nodes that the visits of a level add. -/
theorem exists_new (level : List α) (s : State α) : ∃ new : List α,
    level.foldl (visit next) s = ⟨s.seen ++ new, s.found ++ new.flatMap next⟩ := by
  induction level generalizing s with
  | nil => exact ⟨[], by simp⟩
  | cons a level ih =>
      rw [List.foldl_cons]
      obtain ⟨new, hnew⟩ := ih (visit next s a)
      by_cases ha : a ∈ s.seen
      · have hsame : visit next s a = s := if_pos ha
        rw [hsame] at hnew ⊢
        exact ⟨new, hnew⟩
      · have hone : visit next s a = ⟨s.seen ++ [a], s.found ++ next a⟩ := if_neg ha
        rw [hone] at hnew ⊢
        exact ⟨a :: new, by rw [hnew]; simp⟩

/-- Before level `n` the nodes at smaller distances have been seen. -/
structure AtLevel (next : α → List α) (root : α) (n : ℕ) (level seen : List α) : Prop where
  nodup : seen.Nodup
  seen : ∀ a, a ∈ seen ↔ ∃ m < n, ReachedIn next root m a
  reached : ∀ a ∈ level, ReachedIn next root n a
  all : ∀ a, AtDistance next root n a → a ∈ level

section AtLevel

variable {root : α} {n : ℕ} {level seen : List α}

omit [DecidableEq α] in
theorem AtLevel.start (root : α) : AtLevel next root 0 [root] [] where
  nodup := List.nodup_nil
  seen a := by simp
  reached a ha := List.mem_singleton.mp ha ▸ .root
  all a ha := by
    cases ha.1
    exact List.mem_cons_self

/-- **A level** visits the nodes at its distance. -/
theorem AtLevel.step (h : AtLevel next root n level seen) : ∃ new : List α,
    level.foldl (visit next) ⟨seen, []⟩ = ⟨seen ++ new, new.flatMap next⟩ ∧ new.Nodup ∧
      (∀ a, a ∈ new ↔ AtDistance next root n a) ∧
      AtLevel next root (n + 1) (new.flatMap next) (seen ++ new) := by
  have hvisited : Visited next _ level _ := visited_foldl level ⟨seen, []⟩
  obtain ⟨new, hnew⟩ := @exists_new _ _ next level ⟨seen, []⟩
  rw [hnew] at hvisited ⊢
  have hnodup : (seen ++ new).Nodup := hvisited.nodup h.nodup
  have hdisjoint := (List.nodup_append.mp hnodup).2.2
  have hmem : ∀ a, a ∈ seen ++ new ↔ a ∈ seen ∨ a ∈ level := hvisited.seen
  have hdistance : ∀ a, a ∈ new ↔ AtDistance next root n a := by
    intro a
    constructor
    · intro ha
      have hnot : a ∉ seen := fun hseen => hdisjoint a hseen a ha rfl
      have hlevel := ((hmem a).mp (List.mem_append_right _ ha)).resolve_left hnot
      exact ⟨h.reached a hlevel, fun m hm hin => hnot ((h.seen a).mpr ⟨m, hm, hin⟩)⟩
    · intro ha
      have hnot : a ∉ seen := fun hseen => by
        obtain ⟨m, hm, hin⟩ := (h.seen a).mp hseen
        exact ha.2 m hm hin
      exact (List.mem_append.mp ((hmem a).mpr (.inr (h.all a ha)))).resolve_left hnot
  refine ⟨new, rfl, (List.nodup_append.mp hnodup).2.1, hdistance, hnodup, fun a => ?_,
    fun b hb => ?_, fun b hb => ?_⟩
  · rw [List.mem_append, h.seen, hdistance]
    constructor
    · rintro (⟨m, hm, hin⟩ | ha)
      · exact ⟨m, by omega, hin⟩
      · exact ⟨n, Nat.lt_succ_self n, ha.1⟩
    · rintro ⟨m, hm, hin⟩
      by_cases hless : ∃ m < n, ReachedIn next root m a
      · exact .inl hless
      · push Not at hless
        have heq : m = n := by
          by_contra hne
          exact hless m (by omega) hin
        exact .inr ⟨heq ▸ hin, hless⟩
  · obtain ⟨a, ha, hab⟩ := List.mem_flatMap.mp hb
    exact ((hdistance a).mp ha).1.step hab
  · obtain ⟨a, ha, hab⟩ := hb.before
    exact List.mem_flatMap.mpr ⟨a, (hdistance a).mpr ha, hab⟩

/-- **The size of the levels** from level `n` on. -/
theorem AtLevel.nextLevels_iff {k fuel : ℕ} {visited : List α} : ∀ {n level seen},
    AtLevel next root n level seen → search next fuel level seen = some visited →
    (NextLevels next (fun found => found.length ≤ k) fuel level seen ↔
      ∀ m, n ≤ m → ∀ nodes : List α, nodes.Nodup → (∀ a ∈ nodes, AtDistance next root m a) →
        (nodes.flatMap next).length ≤ k) := by
  induction fuel with
  | zero =>
      intro n level seen h hsearch
      cases hsearch
  | succ fuel ih =>
      intro n level seen h hsearch
      rw [search] at hsearch
      rw [NextLevels]
      by_cases hlevel : level = []
      · -- no node is at this distance, and none further away
        rw [if_pos hlevel]
        refine iff_of_true trivial fun m hm nodes _ hnodes => ?_
        cases nodes with
        | nil => exact Nat.zero_le k
        | cons a nodes =>
            obtain ⟨c, hc⟩ := (hnodes a List.mem_cons_self).exists_le hm
            have hin := h.all c hc
            rw [hlevel] at hin
            cases hin
      · rw [if_neg hlevel] at hsearch ⊢
        obtain ⟨new, hnew, hnodup, hdistance, hnext⟩ := h.step
        rw [hnew] at hsearch ⊢
        dsimp only at hsearch ⊢
        rw [ih hnext hsearch]
        constructor
        · rintro ⟨hlength, hmore⟩ m hm nodes hnodes hat
          rcases Nat.eq_or_lt_of_le hm with rfl | hlt
          · have hsub : nodes ⊆ new := fun a ha => (hdistance a).mpr (hat a ha)
            obtain ⟨part, hperm, hsublist⟩ := hnodes.subperm hsub
            refine le_trans ?_ hlength
            rw [← (hperm.flatMap_right next).length_eq]
            exact (hsublist.flatMap next).length_le
          · exact hmore m hlt nodes hnodes hat
        · intro hall
          exact ⟨hall n (Nat.le_refl n) new hnodup fun a ha => (hdistance a).mp ha,
            fun m hm => hall m (by omega)⟩

/-- **The levels have at most `k` nodes** exactly if the nodes at any distance lead to at most
`k` nodes. -/
theorem nextLevels_iff {k fuel : ℕ} {visited : List α}
    (hsearch : search next fuel [root] [] = some visited) :
    NextLevels next (fun found => found.length ≤ k) fuel [root] [] ↔ LevelsWithin next root k := by
  rw [(AtLevel.start root).nextLevels_iff hsearch]
  exact forall_congr' fun m => forall_prop_of_true (Nat.zero_le m)

end AtLevel

end LevelSearch
