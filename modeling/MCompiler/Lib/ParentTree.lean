/-
# Trees given by parent pointers

The nodes are numbers, and the parent of a node other than the root has a larger number.
`Climbs d r P` says that the parent function `d` is such a tree with the root `r` on the
nodes in `P`; `Ancestor d x y` says that following the parents from `x` leads to `y`.
-/
import Mathlib.Logic.Function.Basic
import Mathlib.Order.Nat

namespace ParentTree

/-- Following the parents from `x` leads to `y`. -/
inductive Ancestor (d : ℕ → ℕ) : ℕ → ℕ → Prop
  | refl (x : ℕ) : Ancestor d x x
  | up {x y : ℕ} : Ancestor d (d x) y → Ancestor d x y

/-- `d` is a tree on the nodes `P`, with the root `r` as its largest node. -/
structure Climbs (d : ℕ → ℕ) (r : ℕ) (P : ℕ → Prop) : Prop where
  root : P r
  fix : d r = r
  le : ∀ x, P x → x ≤ r
  up : ∀ x, P x → x ≠ r → P (d x) ∧ x < d x

/-- `c` is the nearest common ancestor of `a` and `b`. -/
structure IsMeet (d : ℕ → ℕ) (a b c : ℕ) : Prop where
  left : Ancestor d a c
  right : Ancestor d b c
  least : ∀ y, Ancestor d a y → Ancestor d b y → Ancestor d c y

variable {d : ℕ → ℕ} {r : ℕ} {P : ℕ → Prop} {x y z : ℕ}

theorem IsMeet.symm {a b c : ℕ} (h : IsMeet d a b c) : IsMeet d b a c :=
  ⟨h.right, h.left, fun y hb ha => h.least y ha hb⟩

theorem Ancestor.parent (x : ℕ) : Ancestor d x (d x) := .up (.refl _)

theorem ancestor_iff : Ancestor d x y ↔ y = x ∨ Ancestor d (d x) y := by
  constructor
  · intro h
    cases h with
    | refl => exact .inl rfl
    | up h => exact .inr h
  · rintro (rfl | h)
    · exact .refl _
    · exact .up h

theorem Ancestor.trans (hxy : Ancestor d x y) (hyz : Ancestor d y z) : Ancestor d x z := by
  induction hxy with
  | refl => exact hyz
  | up _ ih => exact .up (ih hyz)

namespace Climbs

theorem closed (h : Climbs d r P) (hx : P x) : P (d x) := by
  by_cases hr : x = r
  · rw [hr, h.fix]
    exact h.root
  · exact (h.up x hx hr).1

theorem le_parent (h : Climbs d r P) (hx : P x) : x ≤ d x := by
  by_cases hr : x = r
  · rw [hr, h.fix]
  · exact (h.up x hx hr).2.le

/-- An ancestor is a node, and is not smaller. -/
theorem ancestor_mem (h : Climbs d r P) (hx : P x) (hxy : Ancestor d x y) : P y ∧ x ≤ y := by
  induction hxy with
  | refl => exact ⟨hx, le_rfl⟩
  | up _ ih =>
      obtain ⟨hy, hle⟩ := ih (h.closed hx)
      exact ⟨hy, (h.le_parent hx).trans hle⟩

theorem ancestor_le (h : Climbs d r P) (hx : P x) (hxy : Ancestor d x y) : x ≤ y :=
  (h.ancestor_mem hx hxy).2

/-- A proper ancestor is an ancestor of the parent, and is larger. -/
theorem lt_of_ancestor (h : Climbs d r P) (hx : P x) (hxy : Ancestor d x y) (hne : y ≠ x) :
    x < y :=
  Nat.lt_of_le_of_ne (h.ancestor_le hx hxy) (Ne.symm hne)

/-- The ancestors of the root. -/
theorem eq_root (h : Climbs d r P) (hry : Ancestor d r y) : y = r :=
  Nat.le_antisymm (h.le y (h.ancestor_mem h.root hry).1) (h.ancestor_le h.root hry)

theorem ancestor_root (h : Climbs d r P) (hx : P x) : Ancestor d x r := by
  obtain ⟨n, hn⟩ : ∃ n, r - x ≤ n := ⟨_, le_rfl⟩
  induction n generalizing x with
  | zero =>
      have hle := h.le x hx
      rw [show x = r from by omega]
      exact .refl r
  | succ n ih =>
      by_cases hr : x = r
      · rw [hr]
        exact .refl r
      · obtain ⟨hdx, hlt⟩ := h.up x hx hr
        exact .up (ih hdx (by omega))

/-- The ancestors of a node form a chain. -/
theorem ancestor_of_le (h : Climbs d r P) (hx : P x) (hxy : Ancestor d x y)
    (hxz : Ancestor d x z) (hyz : y ≤ z) : Ancestor d y z := by
  induction hxy with
  | refl => exact hxz
  | @up x y hy ih =>
      rcases ancestor_iff.mp hxz with rfl | hz
      · -- `y` is an ancestor of `x` that is not above it
        have hle := (h.le_parent hx).trans (h.ancestor_le (h.closed hx) hy)
        rw [show y = z from by omega]
        exact .refl _
      · exact ih (h.closed hx) hz hyz

/-! ## Nearest common ancestors -/

/-- A nearest common ancestor is unique. -/
theorem meet_unique (h : Climbs d r P) {a b c c' : ℕ} (ha : P a) (hc : IsMeet d a b c)
    (hc' : IsMeet d a b c') : c = c' :=
  Nat.le_antisymm
    (h.ancestor_le (h.ancestor_mem ha hc.left).1 (hc.least c' hc'.left hc'.right))
    (h.ancestor_le (h.ancestor_mem ha hc'.left).1 (hc'.least c hc.left hc.right))

/-! ## Children -/

/-- A child is smaller than its parent. -/
theorem lt_of_child (h : Climbs d r P) (hx : P x) (hne : x ≠ d x) : x < d x :=
  Nat.lt_of_le_of_ne (h.le_parent hx) hne

/-- What lies below `x` is `x` or lies below a child of `x`. -/
theorem ancestor_child_iff (h : Climbs d r P) (hy : P y) :
    Ancestor d y x ↔ y = x ∨ ∃ c, P c ∧ d c = x ∧ c ≠ x ∧ Ancestor d y c := by
  constructor
  · intro hyx
    induction hyx with
    | refl => exact .inl rfl
    | @up y x _ ih =>
        by_cases heq : y = x
        · exact .inl heq
        · rcases ih (h.closed hy) with hd | ⟨c, hc, hdc, hne, hyc⟩
          · exact .inr ⟨y, hy, hd, heq, .refl y⟩
          · exact .inr ⟨c, hc, hdc, hne, .up hyc⟩
  · rintro (rfl | ⟨c, -, rfl, -, hyc⟩)
    · exact .refl _
    · exact hyc.trans (.parent c)

/-- Different children have nothing below them in common. -/
theorem child_unique (h : Climbs d r P) {c c' : ℕ} (hy : P y) (hyc : Ancestor d y c)
    (hyc' : Ancestor d y c') (hc : d c = x) (hc' : d c' = x) (hne : c ≠ x) (hne' : c' ≠ x) :
    c = c' := by
  have hbelow : ∀ {a b : ℕ}, P a → P b → d a = x → d b = x → b ≠ x → Ancestor d a b → a = b := by
    intro a b ha hb hda hdb hbx hab
    rcases ancestor_iff.mp hab with heq | hxb
    · exact heq.symm
    · rw [hda] at hxb
      have hle := h.ancestor_le (hda ▸ h.closed ha) hxb
      have hlt := h.lt_of_child hb (by rwa [hdb])
      omega
  have hPc := (h.ancestor_mem hy hyc).1
  have hPc' := (h.ancestor_mem hy hyc').1
  rcases Nat.le_total c c' with hle | hle
  · exact hbelow hPc hPc' hc hc' hne' (h.ancestor_of_le hy hyc hyc' hle)
  · exact (hbelow hPc' hPc hc' hc hne (h.ancestor_of_le hy hyc' hyc hle)).symm

end Climbs

/-! ## Moving one node -/

section Update

variable {j c : ℕ}

/-- The ancestors of the nodes above `j` stay. -/
theorem ancestor_update_of_lt (h : Climbs d r P) (hx : P x) (hj : j < x) :
    Ancestor (Function.update d j c) x y ↔ Ancestor d x y := by
  constructor
  · intro hxy
    induction hxy with
    | refl => exact .refl _
    | @up x y _ ih =>
        rw [Function.update_of_ne (by omega)] at ih
        exact .up (ih (h.closed hx) (Nat.lt_of_lt_of_le hj (h.le_parent hx)))
  · intro hxy
    induction hxy with
    | refl => exact .refl _
    | @up x y _ ih =>
        apply Ancestor.up
        rw [Function.update_of_ne (by omega)]
        exact ih (h.closed hx) (Nat.lt_of_lt_of_le hj (h.le_parent hx))

/-- Moving `j` under an ancestor of its parent takes ancestors away and adds none. -/
theorem ancestor_of_update (hc : Ancestor d (d j) c)
    (hxy : Ancestor (Function.update d j c) x y) : Ancestor d x y := by
  induction hxy with
  | refl => exact .refl _
  | @up x y _ ih =>
      by_cases hx : x = j
      · subst hx
        rw [Function.update_self] at ih
        exact .up (hc.trans ih)
      · rw [Function.update_of_ne hx] at ih
        exact .up ih

/-- An ancestor is kept unless it was one through `j`. -/
theorem ancestor_update_or (hxy : Ancestor d x y) :
    Ancestor (Function.update d j c) x y ∨
      (Ancestor (Function.update d j c) x j ∧ Ancestor d j y ∧ y ≠ j) := by
  induction hxy with
  | refl => exact .inl (.refl _)
  | @up x y hy ih =>
      by_cases hx : x = j
      · subst hx
        by_cases hyx : y = x
        · exact .inl (hyx ▸ .refl _)
        · exact .inr ⟨.refl _, .up hy, hyx⟩
      · have hup : ∀ {z : ℕ}, Ancestor (Function.update d j c) (d x) z →
            Ancestor (Function.update d j c) x z := fun hz =>
          .up (by rwa [Function.update_of_ne hx])
        rcases ih with h | ⟨h, hjy, hne⟩
        · exact .inl (hup h)
        · exact .inr ⟨hup h, hjy, hne⟩

end Update

end ParentTree
