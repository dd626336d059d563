/-
# `intersect` on a partially filled array

While `dominators_compute` runs, the nodes that have not been processed hold `SIZE_MAX`.
The others form a tree whose root is the last node, and `intersect` finds the nearest
common ancestor of any two of them (`intersect_nearest`).
-/
import Mathlib.Tactic.IntervalCases
import MCompiler.DominatorsLoop

open ParentTree

/-- The node has got a dominator. -/
def Processed (doms : List ℕ) (x : ℕ) : Prop := ∃ y, doms[x]? = some y ∧ y ≠ sizeMax

/-- The dominators found so far: the last node is the root, and every other one with a
dominator has a larger one, which has been processed, too. -/
structure PartialDoms (doms : List ℕ) (root : ℕ) : Prop where
  count : doms.length = root + 1
  self : doms[root]? = some root
  processed : Processed doms root
  up : ∀ x y, doms[x]? = some y → y ≠ sizeMax → x ≠ root → x < y ∧ Processed doms y

section Nearest

variable {doms : List ℕ} {root : ℕ}

theorem Processed.lt {x : ℕ} (h : Processed doms x) : x < doms.length := by
  obtain ⟨y, hy, -⟩ := h
  exact (List.getElem?_eq_some_iff.mp hy).1

theorem Processed.parent {x : ℕ} (h : Processed doms x) :
    doms[x]? = some (parentOf doms x) ∧ parentOf doms x ≠ sizeMax := by
  have hparent := getElem?_eq_parentOf h.lt
  obtain ⟨y, hy, hne⟩ := h
  rw [hparent] at hy
  exact ⟨hparent, Option.some.inj hy ▸ hne⟩

/-- The processed nodes are a tree. -/
theorem PartialDoms.climbs (h : PartialDoms doms root) :
    Climbs (parentOf doms) root (Processed doms) where
  root := h.processed
  fix := Option.some.inj (h.processed.parent.1.symm.trans h.self)
  le x hx := by
    have hlt := hx.lt
    rw [h.count] at hlt
    omega
  up x hx hne := by
    obtain ⟨hparent, hset⟩ := hx.parent
    obtain ⟨hlt, hprocessed⟩ := h.up x _ hparent hset hne
    exact ⟨hprocessed, hlt⟩

/-- **`intersect` finds the nearest common ancestor** of two processed nodes, in at most as
many steps as there are nodes above them, whatever the order of the two. -/
theorem intersect_nearest (h : PartialDoms doms root) {a b : ℕ} (ha : Processed doms a)
    (hb : Processed doms b) :
    ∃ c, IsMeet (parentOf doms) a b c ∧ ∀ fuel, (root - a) + (root - b) < fuel →
      intersect doms fuel a b = some c ∧ intersect doms fuel b a = some c := by
  obtain ⟨c, -, hmeet⟩ := intersect_meet h.count h.climbs _ a b ha hb (Nat.lt_succ_self _)
  refine ⟨c, hmeet, fun fuel hfuel => ⟨?_, ?_⟩⟩
  · obtain ⟨c', hc', hmeet'⟩ := intersect_meet h.count h.climbs fuel a b ha hb hfuel
    rw [hc', h.climbs.meet_unique ha hmeet hmeet']
  · obtain ⟨c', hc', hmeet'⟩ := intersect_meet h.count h.climbs fuel b a hb ha (by omega)
    rw [hc', h.climbs.meet_unique ha hmeet hmeet'.symm]

end Nearest

/-- Two nodes below the root, with one between them that has not been processed. -/
theorem intersect_nearest_example :
    ∃ c, IsMeet (parentOf [3, sizeMax, 3, 4, 4]) 0 2 c ∧ ∀ fuel, (4 - 0) + (4 - 2) < fuel →
      intersect [3, sizeMax, 3, 4, 4] fuel 0 2 = some c ∧
        intersect [3, sizeMax, 3, 4, 4] fuel 2 0 = some c := by
  apply intersect_nearest ⟨rfl, rfl, ⟨4, rfl, by decide⟩, ?_⟩ ⟨3, rfl, by decide⟩ ⟨3, rfl, by decide⟩
  intro x y hy hset hne
  have hlt : x < 5 := (List.getElem?_eq_some_iff.mp hy).1
  interval_cases x
  · cases hy
    exact ⟨by decide, 4, rfl, by decide⟩
  · exact absurd (Option.some.inj hy).symm hset
  · cases hy
    exact ⟨by decide, 4, rfl, by decide⟩
  · cases hy
    exact ⟨by decide, 4, rfl, by decide⟩
  · exact absurd rfl hne
