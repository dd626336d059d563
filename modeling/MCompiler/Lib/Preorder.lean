/-
# Trees in pre-order

A tree is given by its nodes and the list of the children of each.  A node is named by its
position, the indices of the children on the way to it; a position comes before the ones
below it and before those of the later siblings, which is the order of the lists.

* `mem_preorder` : the listing has every node, under its position;
* `pairwise_preorder` : the positions of the listing increase, so that none is repeated.
-/
import Mathlib.Data.List.Basic
import Mathlib.Data.Nat.Basic

section Preorder

variable {α : Type*} (children : α → List α)

/-- The node at a position. -/
def descend : α → List ℕ → Option α
  | a, [] => some a
  | a, i :: position => (children a)[i]?.bind fun child => descend child position

/-- The nodes of the first `n` levels in pre-order, with their positions. -/
def preorder : ℕ → α → List ℕ → List (List ℕ × α)
  | 0, _, _ => []
  | n + 1, a, position =>
      (position, a) ::
        (children a).zipIdx.flatMap fun child => preorder n child.1 (position ++ [child.2])

variable {children}

@[simp] theorem descend_nil (a : α) : descend children a [] = some a := rfl

theorem descend_cons {a b : α} {i : ℕ} {position : List ℕ} :
    descend children a (i :: position) = some b ↔
      ∃ child, (children a)[i]? = some child ∧ descend children child position = some b := by
  rw [descend, Option.bind_eq_some_iff]

/-- Positions are no longer than a measure that decreases on the way down. -/
theorem length_of_descend {size : α → ℕ} (hsize : ∀ a, ∀ c ∈ children a, size c < size a)
    {a b : α} {position : List ℕ} (h : descend children a position = some b) :
    position.length + size b ≤ size a := by
  induction position generalizing a with
  | nil =>
      cases h
      simp
  | cons i position ih =>
      obtain ⟨child, hchild, hrest⟩ := descend_cons.mp h
      have hlt := hsize a child (List.mem_of_getElem? hchild)
      have hle := ih hrest
      rw [List.length_cons]
      omega

/-- The listing has every node of its levels, under its position. -/
theorem mem_preorder {n : ℕ} {a b : α} {start position : List ℕ} :
    (position, b) ∈ preorder children n a start ↔
      ∃ rest, position = start ++ rest ∧ rest.length < n ∧ descend children a rest = some b := by
  induction n generalizing a start with
  | zero => simp [preorder]
  | succ n ih =>
      rw [preorder, List.mem_cons, List.mem_flatMap]
      constructor
      · rintro (heq | ⟨⟨child, i⟩, hmem, hin⟩)
        · cases heq
          exact ⟨[], (List.append_nil _).symm, Nat.succ_pos n, rfl⟩
        · obtain ⟨rest, rfl, hlt, hrest⟩ := ih.mp hin
          rw [List.mem_zipIdx_iff_getElem?] at hmem
          refine ⟨i :: rest, by simp, by rw [List.length_cons]; omega, ?_⟩
          exact descend_cons.mpr ⟨child, hmem, hrest⟩
      · rintro ⟨rest, rfl, hlt, hrest⟩
        cases rest with
        | nil =>
            cases hrest
            exact .inl (by rw [List.append_nil])
        | cons i rest =>
            obtain ⟨child, hchild, hrest⟩ := descend_cons.mp hrest
            refine .inr ⟨(child, i), ?_, ih.mpr ⟨rest, by simp, ?_, hrest⟩⟩
            · rw [List.mem_zipIdx_iff_getElem?]
              exact hchild
            · rw [List.length_cons] at hlt
              omega

/-- More levels than the tree has do not change the listing. -/
theorem preorder_of_le {n m : ℕ} (hle : n ≤ m) {a : α} {start : List ℕ}
    (h : ∀ position b, descend children a position = some b → position.length < n) :
    preorder children m a start = preorder children n a start := by
  induction n generalizing m a start with
  | zero => exact absurd (h [] a rfl) (Nat.not_lt_zero _)
  | succ n ih =>
      obtain ⟨m, rfl⟩ : ∃ k, m = k + 1 := ⟨m - 1, by omega⟩
      rw [preorder, preorder]
      congr 1
      refine List.flatMap_congr fun child hchild => ih (Nat.le_of_succ_le_succ hle) ?_
      intro position b hb
      have hmem := List.mem_zipIdx_iff_getElem?.mp hchild
      have hlt := h (child.2 :: position) b (descend_cons.mpr ⟨child.1, hmem, hb⟩)
      rw [List.length_cons] at hlt
      exact Nat.lt_of_succ_lt_succ hlt

/-- The indices of a list increase. -/
theorem pairwise_zipIdx (l : List α) : l.zipIdx.Pairwise fun a b => a.2 < b.2 := by
  have h : (l.zipIdx.map Prod.snd).Pairwise (· < ·) := by
    rw [List.zipIdx_map_snd]
    exact List.pairwise_lt_range'
  exact List.pairwise_map.mp h

/-- The positions of the listing increase. -/
theorem pairwise_preorder (n : ℕ) (a : α) (start : List ℕ) :
    ((preorder children n a start).map Prod.fst).Pairwise (· < ·) := by
  rw [List.pairwise_map]
  induction n generalizing a start with
  | zero => exact List.Pairwise.nil
  | succ n ih =>
      rw [preorder, List.pairwise_cons, List.pairwise_flatMap]
      refine ⟨?_, fun child _ => ih child.1 _, ?_⟩
      · rintro ⟨position, b⟩ hin
        obtain ⟨⟨child, i⟩, -, hin⟩ := List.mem_flatMap.mp hin
        obtain ⟨rest, rfl, -⟩ := mem_preorder.mp hin
        simpa using @List.append_left_lt _ _ start _ _ (List.nil_lt_cons i rest)
      · refine (pairwise_zipIdx (children a)).imp ?_
        rintro ⟨c, i⟩ ⟨d, j⟩ hlt ⟨position, b⟩ hin ⟨position', b'⟩ hin'
        obtain ⟨rest, rfl, -⟩ := mem_preorder.mp hin
        obtain ⟨rest', rfl, -⟩ := mem_preorder.mp hin'
        simp only [List.append_assoc, List.singleton_append]
        apply List.append_left_lt
        exact List.cons_lt_cons_iff.mpr (.inl hlt)

end Preorder
