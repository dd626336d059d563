/-
# Listing a tree

A tree that is given by the parent of each node is listed from a node on: the node, and for
each child the edge to it and the listing from the child.

* `mem_treeItems` : the listing has the nodes below the node and the edges to their children;
* `nodup_treeItems` : it has each of these once.
-/
import Mathlib.Data.List.Nodup
import MCompiler.Lib.ParentTree

namespace ParentTree

/-- A node, or the edge from a node to a child of it. -/
inductive TreeItem where
  | node (x : ℕ)
  | edge (x child : ℕ)
  deriving DecidableEq

/-- The first `n` levels of the tree below a node. -/
def treeItems (children : ℕ → List ℕ) : ℕ → ℕ → List TreeItem
  | 0, _ => []
  | n + 1, x =>
      .node x :: (children x).flatMap fun child => .edge x child :: treeItems children n child

/-- The node itself, or the one that an edge leads to. -/
def TreeItem.target : TreeItem → ℕ
  | .node x => x
  | .edge _ child => child

/-- `children` lists the children of every node, once each. -/
def IsChildren (d : ℕ → ℕ) (P : ℕ → Prop) (children : ℕ → List ℕ) : Prop :=
  ∀ x, (children x).Nodup ∧ ∀ c, c ∈ children x ↔ P c ∧ d c = x ∧ c ≠ x

section Listing

variable {d : ℕ → ℕ} {r : ℕ} {P : ℕ → Prop} {children : ℕ → List ℕ}

/-- **The items of the listing**: the nodes below `x`, and the edges to their children. -/
theorem Climbs.mem_treeItems (h : Climbs d r P) (hchildren : IsChildren d P children) (n : ℕ) :
    ∀ x, P x → x < n →
      (∀ y, .node y ∈ treeItems children n x ↔ P y ∧ Ancestor d y x) ∧
      ∀ y c, .edge y c ∈ treeItems children n x ↔ c ∈ children y ∧ P y ∧ Ancestor d y x := by
  induction n with
  | zero => exact fun x _ hx => absurd hx (Nat.not_lt_zero x)
  | succ n ih =>
      intro x hPx hx
      have hchild : ∀ c ∈ children x, P c ∧ c < n := by
        intro c hc
        obtain ⟨hPc, hcx, hne⟩ := (hchildren x).2 c |>.mp hc
        have hlt := h.lt_of_child hPc (by rw [hcx]; exact hne)
        exact ⟨hPc, by omega⟩
      have hbelow : ∀ y, P y → (Ancestor d y x ↔ y = x ∨ ∃ c ∈ children x, Ancestor d y c) := by
        intro y hPy
        rw [h.ancestor_child_iff hPy]
        refine or_congr_right ⟨?_, ?_⟩
        · rintro ⟨c, hPc, hcx, hne, hyc⟩
          exact ⟨c, ((hchildren x).2 c).mpr ⟨hPc, hcx, hne⟩, hyc⟩
        · rintro ⟨c, hc, hyc⟩
          obtain ⟨hPc, hcx, hne⟩ := ((hchildren x).2 c).mp hc
          exact ⟨c, hPc, hcx, hne, hyc⟩
      constructor
      · intro y
        rw [treeItems, List.mem_cons, List.mem_flatMap]
        constructor
        · rintro (heq | ⟨c, hc, hmem⟩)
          · cases heq
            exact ⟨hPx, .refl _⟩
          · rcases List.mem_cons.mp hmem with heq | hmem
            · cases heq
            · obtain ⟨hPy, hyc⟩ := ((ih c (hchild c hc).1 (hchild c hc).2).1 y).mp hmem
              exact ⟨hPy, (hbelow y hPy).mpr (.inr ⟨c, hc, hyc⟩)⟩
        · rintro ⟨hPy, hyx⟩
          rcases (hbelow y hPy).mp hyx with rfl | ⟨c, hc, hyc⟩
          · exact .inl rfl
          · have hin := ((ih c (hchild c hc).1 (hchild c hc).2).1 y).mpr ⟨hPy, hyc⟩
            exact .inr ⟨c, hc, List.mem_cons_of_mem _ hin⟩
      · intro y c'
        rw [treeItems, List.mem_cons, List.mem_flatMap]
        constructor
        · rintro (heq | ⟨c, hc, hmem⟩)
          · cases heq
          · rcases List.mem_cons.mp hmem with heq | hmem
            · cases heq
              exact ⟨hc, hPx, .refl _⟩
            · obtain ⟨hc', hPy, hyc⟩ :=
                ((ih c (hchild c hc).1 (hchild c hc).2).2 y c').mp hmem
              exact ⟨hc', hPy, (hbelow y hPy).mpr (.inr ⟨c, hc, hyc⟩)⟩
        · rintro ⟨hc', hPy, hyx⟩
          rcases (hbelow y hPy).mp hyx with rfl | ⟨c, hc, hyc⟩
          · exact .inr ⟨c', hc', List.mem_cons_self⟩
          · have hin := ((ih c (hchild c hc).1 (hchild c hc).2).2 y c').mpr ⟨hc', hPy, hyc⟩
            exact .inr ⟨c, hc, List.mem_cons_of_mem _ hin⟩

/-- An item is about a node below `x`. -/
theorem Climbs.target_treeItems (h : Climbs d r P) (hchildren : IsChildren d P children)
    {n x : ℕ} (hPx : P x) (hx : x < n) {item : TreeItem} (hitem : item ∈ treeItems children n x) :
    P item.target ∧ Ancestor d item.target x := by
  obtain ⟨hnode, hedge⟩ := h.mem_treeItems hchildren n x hPx hx
  cases item with
  | node y => exact (hnode y).mp hitem
  | edge y c =>
      obtain ⟨hc, -, hyx⟩ := (hedge y c).mp hitem
      obtain ⟨hPc, hcy, -⟩ := ((hchildren y).2 c).mp hc
      exact ⟨hPc, (hcy ▸ Ancestor.parent c : Ancestor d c y).trans hyx⟩

/-- **No item is listed twice.** -/
theorem Climbs.nodup_treeItems (h : Climbs d r P) (hchildren : IsChildren d P children) (n : ℕ) :
    ∀ x, P x → x < n → (treeItems children n x).Nodup := by
  induction n with
  | zero => exact fun x _ hx => absurd hx (Nat.not_lt_zero x)
  | succ n ih =>
      intro x hPx hx
      have hchild : ∀ c ∈ children x, P c ∧ d c = x ∧ c ≠ x ∧ c < x := by
        intro c hc
        obtain ⟨hPc, hcx, hne⟩ := ((hchildren x).2 c).mp hc
        have hlt := h.lt_of_child hPc (by rw [hcx]; exact hne)
        exact ⟨hPc, hcx, hne, by omega⟩
      -- what is listed for a child is about a node below the child
      have htarget : ∀ c ∈ children x, ∀ item ∈ TreeItem.edge x c :: treeItems children n c,
          P item.target ∧ Ancestor d item.target c := by
        intro c hc item hitem
        obtain ⟨hPc, -, -, hlt⟩ := hchild c hc
        rcases List.mem_cons.mp hitem with rfl | hitem
        · exact ⟨hPc, .refl _⟩
        · exact h.target_treeItems hchildren hPc (by omega) hitem
      rw [treeItems, List.nodup_cons, List.nodup_flatMap]
      refine ⟨?_, ?_, ?_⟩
      · intro hmem
        obtain ⟨c, hc, hin⟩ := List.mem_flatMap.mp hmem
        obtain ⟨-, -, -, hlt⟩ := hchild c hc
        have hle := h.ancestor_le hPx (htarget c hc _ hin).2
        omega
      · intro c hc
        obtain ⟨hPc, -, -, hlt⟩ := hchild c hc
        refine List.nodup_cons.mpr ⟨?_, ih c hPc (by omega)⟩
        intro hmem
        obtain ⟨-, -, hxc⟩ := ((h.mem_treeItems hchildren n c hPc (by omega)).2 x c).mp hmem
        have hle := h.ancestor_le hPx hxc
        omega
      · refine List.Pairwise.imp_of_mem ?_ (hchildren x).1
        intro c c' hc hc' hne item hitem hitem'
        obtain ⟨-, hcx, hnex, -⟩ := hchild c hc
        obtain ⟨-, hcx', hnex', -⟩ := hchild c' hc'
        obtain ⟨hPt, hbelow⟩ := htarget c hc item hitem
        exact hne (h.child_unique hPt hbelow (htarget c' hc' item hitem').2 hcx hcx' hnex hnex')

end Listing

end ParentTree
