/-
# Operator trees and operator precedence

Binary trees over operators, with operands at the leaves.  A tree is `Grouped` when
operators of higher precedence are below those of lower precedence and operators of
equal precedence associate to the left; a sequence of operands and operators has
exactly one grouped tree (`grouped_unique`, `exists_grouped`).

`repair` is the parsing scheme that first builds the left-leaning tree and then makes
one attempt to rotate the root for each operator, from the last one to the first.
`repair_grouped_iff` says for which sequences this gives the grouped tree: those in
which, once a precedence is larger than the one before it, all later ones are
(`AscentsLast`).
-/
import Mathlib.Data.List.Chain
import Mathlib.Algebra.GroupWithZero.Nat
import Mathlib.Order.Lattice
import Mathlib.Tactic.SplitIfs

/-- Binary trees with operators at the nodes and operands at the leaves. -/
inductive OpTree (O A : Type*) where
  | leaf (a : A)
  | node (op : O) (left right : OpTree O A)
  deriving DecidableEq, Repr

namespace OpTree

variable {O A B P : Type*}

/-! ## The sequence of a tree -/

/-- The first operand. -/
def first : OpTree O A → A
  | leaf a => a
  | node _ l _ => l.first

/-- The operators in order, each with the operand after it. -/
def rest : OpTree O A → List (O × A)
  | leaf _ => []
  | node op l r => l.rest ++ (op, r.first) :: r.rest

/-- The operators in order. -/
def ops (t : OpTree O A) : List O := t.rest.map Prod.fst

@[simp] theorem ops_leaf (a : A) : (leaf a : OpTree O A).ops = [] := rfl

@[simp] theorem ops_node (op : O) (l r : OpTree O A) :
    (node op l r).ops = l.ops ++ op :: r.ops := by
  simp [ops, rest]

/-- The tree that leans to the right. -/
def rightComb (a : A) : List (O × A) → OpTree O A
  | [] => leaf a
  | (op, b) :: rest => node op (leaf a) (rightComb b rest)

/-! ## Grouping by precedence -/

section Grouped

variable [LinearOrder P] (prec : O → P)

/-- The root, if it is an operator, has precedence at least `p`. -/
def AtLeast (p : P) : OpTree O A → Prop
  | leaf _ => True
  | node op _ _ => p ≤ prec op

/-- The root, if it is an operator, has precedence above `p`. -/
def Above (p : P) : OpTree O A → Prop
  | leaf _ => True
  | node op _ _ => p < prec op

/-- Higher precedences are below lower ones, and equal ones associate to the left. -/
def Grouped : OpTree O A → Prop
  | leaf _ => True
  | node op l r => l.Grouped ∧ r.Grouped ∧ l.AtLeast prec (prec op) ∧ r.Above prec (prec op)

/-- All operators of a grouped tree have at least the precedence of its root. -/
theorem Grouped.le_of_mem {p : P} {t : OpTree O A} (h : t.Grouped prec) (hp : t.AtLeast prec p) :
    ∀ o ∈ t.ops, p ≤ prec o := by
  induction t generalizing p with
  | leaf a =>
      intro o ho
      cases ho
  | node op l r ihl ihr =>
      obtain ⟨hl, hr, hlop, hrop⟩ := h
      have hr' : r.AtLeast prec (prec op) := by
        cases r with
        | leaf => trivial
        | node o l r => exact le_of_lt hrop
      intro o ho
      rw [ops_node, List.mem_append, List.mem_cons] at ho
      rcases ho with ho | rfl | ho
      · exact le_trans hp (ihl hl hlop o ho)
      · exact hp
      · exact le_trans hp (ihr hr hr' o ho)

/-- All operators of a grouped tree lie above what its root lies above. -/
theorem Grouped.lt_of_mem {p : P} {t : OpTree O A} (h : t.Grouped prec) (hp : t.Above prec p) :
    ∀ o ∈ t.ops, p < prec o := by
  cases t with
  | leaf a =>
      intro o ho
      cases ho
  | node op l r =>
      intro o ho
      exact lt_of_lt_of_le hp (h.le_of_mem prec (show AtLeast prec (prec op) _ from le_refl _) o ho)

/-- **A grouped tree is determined by its sequence.**  Its root is the last operator of
least precedence. -/
theorem grouped_unique {t t' : OpTree O A} (h : t.Grouped prec) (h' : t'.Grouped prec)
    (hfirst : t.first = t'.first) (hrest : t.rest = t'.rest) : t = t' := by
  induction t generalizing t' with
  | leaf a =>
      cases t' with
      | leaf b => exact congrArg leaf hfirst
      | node op l r => simp [rest] at hrest
  | node op l r ihl ihr =>
      cases t' with
      | leaf b => simp [rest] at hrest
      | node op' l' r' =>
          obtain ⟨hl, hr, hlop, hrop⟩ := h
          obtain ⟨hl', hr', hlop', hrop'⟩ := h'
          simp only [rest] at hrest
          have hmem : ∀ {t : OpTree O A} {x : O × A}, x ∈ t.rest → x.1 ∈ t.ops := fun hx =>
            List.mem_map_of_mem hx
          rcases List.append_eq_append_iff.mp hrest with ⟨as, hl₁, hr₁⟩ | ⟨as, hl₁, hr₁⟩
          · cases as with
            | nil =>
                rw [List.nil_append, List.cons.injEq, Prod.mk.injEq] at hr₁
                rw [List.append_nil] at hl₁
                obtain ⟨⟨rfl, hfr⟩, hrr⟩ := hr₁
                rw [ihl hl hl' hfirst hl₁.symm, ihr hr hr' hfr hrr]
            -- the root of the first tree lies left of the root of the second
            | cons x as =>
                rw [List.cons_append, List.cons.injEq] at hr₁
                obtain ⟨rfl, hrr⟩ := hr₁
                have h1 := hl'.le_of_mem prec hlop' op (hmem (x := (op, r.first)) (by rw [hl₁]; simp))
                have h2 := hr.lt_of_mem prec hrop op' (hmem (x := (op', r'.first)) (by rw [hrr]; simp))
                exact absurd h2 (not_lt_of_ge h1)
          · cases as with
            | nil =>
                rw [List.nil_append, List.cons.injEq, Prod.mk.injEq] at hr₁
                rw [List.append_nil] at hl₁
                obtain ⟨⟨rfl, hfr⟩, hrr⟩ := hr₁
                rw [ihl hl hl' hfirst hl₁, ihr hr hr' hfr.symm hrr.symm]
            | cons x as =>
                rw [List.cons_append, List.cons.injEq] at hr₁
                obtain ⟨rfl, hrr⟩ := hr₁
                have h1 := hl.le_of_mem prec hlop op' (hmem (x := (op', r'.first)) (by rw [hl₁]; simp))
                have h2 := hr'.lt_of_mem prec hrop' op (hmem (x := (op, r.first)) (by rw [hrr]; simp))
                exact absurd h2 (not_lt_of_ge h1)

/-- Add an operator and an operand at the end of a tree, where they belong. -/
def push (t : OpTree O A) (op : O) (a : A) : OpTree O A :=
  match t with
  | leaf b => node op (leaf b) (leaf a)
  | node o l r => if prec o < prec op then node o l (r.push op a) else node op (node o l r) (leaf a)

theorem push_first (t : OpTree O A) (op : O) (a : A) : (t.push prec op a).first = t.first := by
  induction t with
  | leaf b => rfl
  | node o l r _ ihr =>
      unfold push
      split_ifs <;> rfl

theorem push_rest (t : OpTree O A) (op : O) (a : A) :
    (t.push prec op a).rest = t.rest ++ [(op, a)] := by
  induction t with
  | leaf b => rfl
  | node o l r _ ihr =>
      unfold push
      split_ifs
      · simp [rest, ihr, push_first]
      · simp [rest, first]

/-- Adding at the end keeps a tree grouped. -/
theorem Grouped.push {t : OpTree O A} (h : t.Grouped prec) (op : O) (a : A) :
    (t.push prec op a).Grouped prec ∧
      ∀ p, t.Above prec p → p < prec op → (t.push prec op a).Above prec p := by
  induction t with
  | leaf b => exact ⟨⟨trivial, trivial, trivial, trivial⟩, fun p _ hp => hp⟩
  | node o l r _ ihr =>
      obtain ⟨hl, hr, hlo, hro⟩ := h
      obtain ⟨hpush, habove⟩ := ihr hr
      unfold OpTree.push
      split_ifs with hlt
      · exact ⟨⟨hl, hpush, hlo, habove _ hro hlt⟩, fun p hp _ => hp⟩
      · exact ⟨⟨⟨hl, hr, hlo, hro⟩, trivial, le_of_not_gt hlt, trivial⟩, fun p _ hp => hp⟩

/-- **Every sequence has a grouped tree.** -/
theorem exists_grouped (a : A) (xs : List (O × A)) :
    ∃ t : OpTree O A, t.Grouped prec ∧ t.first = a ∧ t.rest = xs := by
  have hfold : ∀ (xs : List (O × A)) (t : OpTree O A), t.Grouped prec →
      (xs.foldl (fun t x => t.push prec x.1 x.2) t).Grouped prec ∧
        (xs.foldl (fun t x => t.push prec x.1 x.2) t).first = t.first ∧
        (xs.foldl (fun t x => t.push prec x.1 x.2) t).rest = t.rest ++ xs := by
    intro xs
    induction xs with
    | nil => exact fun t h => ⟨h, rfl, by simp⟩
    | cons x xs ih =>
        intro t h
        obtain ⟨h1, h2, h3⟩ := ih _ (h.push prec x.1 x.2).1
        refine ⟨h1, h2.trans (push_first prec t x.1 x.2), h3.trans ?_⟩
        rw [push_rest, List.append_assoc]
        rfl
  obtain ⟨h1, h2, h3⟩ := hfold xs (leaf a) trivial
  exact ⟨_, h1, h2, h3⟩

end Grouped

/-! ## One rotation for each operator -/

section Repair

variable [LinearOrder P] (prec : O → P)

/-- A right rotation of the root, if it binds tighter than `p`. -/
def rotate (p : P) : OpTree O A → OpTree O A
  | node o (node o' l z) r =>
      if p < prec o then node o' l (node o z r) else node o (node o' l z) r
  | t => t

/-- Extend `t` by operators to the left-leaning tree; then, from the last operator to
the first, rotate the root if it binds tighter than the operator. -/
def repair (t : OpTree O A) : List (O × A) → OpTree O A
  | [] => t
  | (op, a) :: rest => rotate prec (prec op) (repair (node op t (leaf a)) rest)

theorem rotate_of_not_lt {p : P} {o : O} (h : ¬ p < prec o) (l r : OpTree O A) :
    rotate prec p (node o l r) = node o l r := by
  cases l with
  | leaf => rfl
  | node o' l z => exact if_neg h

theorem rotate_of_lt {p : P} {o : O} (h : p < prec o) (o' : O) (l z r : OpTree O A) :
    rotate prec p (node o (node o' l z) r) = node o' l (node o z r) := if_pos h

theorem rotate_sequence (p : P) (t : OpTree O A) :
    (rotate prec p t).first = t.first ∧ (rotate prec p t).rest = t.rest := by
  cases t with
  | leaf => exact ⟨rfl, rfl⟩
  | node o l r =>
      cases l with
      | leaf => exact ⟨rfl, rfl⟩
      | node o' l z =>
          by_cases hlt : p < prec o
          · rw [rotate_of_lt prec hlt]
            exact ⟨rfl, by simp [rest, first]⟩
          · rw [rotate_of_not_lt prec hlt]
            exact ⟨rfl, rfl⟩

/-- **Rotations neither lose nor reorder anything.** -/
theorem repair_sequence (t : OpTree O A) (xs : List (O × A)) :
    (repair prec t xs).first = t.first ∧ (repair prec t xs).rest = t.rest ++ xs := by
  induction xs generalizing t with
  | nil => exact ⟨rfl, by simp [repair]⟩
  | cons x xs ih =>
      obtain ⟨op, a⟩ := x
      obtain ⟨h1, h2⟩ := rotate_sequence prec (prec op) (repair prec (node op t (leaf a)) xs)
      obtain ⟨h3, h4⟩ := ih (node op t (leaf a))
      refine ⟨h1.trans h3, h2.trans (h4.trans ?_)⟩
      simp [rest, first]

/-! ### The shape of the intermediate trees -/

/-- The subtrees along the left edge. -/
inductive OnLeftEdge (op : O) (l : OpTree O A) : OpTree O A → Prop where
  | root (r : OpTree O A) : OnLeftEdge op l (node op l r)
  | left {o : O} {t : OpTree O A} (r : OpTree O A) : OnLeftEdge op l t →
      OnLeftEdge op l (node o t r)

theorem OnLeftEdge.descend {op op' : O} {l s t : OpTree O A}
    (h : OnLeftEdge op' (node op l s) t) : OnLeftEdge op l t := by
  induction h with
  | root r => exact .left r (.root s)
  | left r _ ih => exact .left r ih

/-- The rotation for the operator `op'` keeps what is left of `op'` on the left edge. -/
theorem OnLeftEdge.rotate {op op' : O} {l s t : OpTree O A}
    (h : OnLeftEdge op' (node op l s) t) : OnLeftEdge op l (rotate prec (prec op') t) := by
  cases h with
  -- the operator is the root, and does not bind tighter than itself
  | root r =>
      rw [rotate_of_not_lt prec (lt_irrefl _)]
      exact .left r (.root s)
  | @left o t r h =>
      by_cases hlt : prec op' < prec o
      · cases h with
        | root r' =>
            rw [rotate_of_lt prec hlt]
            exact .left _ (.root s)
        | @left o' t r' h =>
            rw [rotate_of_lt prec hlt]
            exact .left _ h.descend
      · rw [rotate_of_not_lt prec hlt]
        exact .left r h.descend

/-- The last operator taken in stays on the left edge, with what it had at its left. -/
theorem onLeftEdge_repair (op : O) (l : OpTree O A) (a : A) (xs : List (O × A)) :
    OnLeftEdge op l (repair prec (node op l (leaf a)) xs) := by
  induction xs generalizing op l a with
  | nil => exact .root _
  | cons x xs ih => exact (ih x.1 (node op l (leaf a)) x.2).rotate prec

/-- A tree with an operator on its left edge has an operator at the root. -/
theorem OnLeftEdge.exists_node {op : O} {l t : OpTree O A} (h : OnLeftEdge op l t) :
    ∃ o l' r, t = node o l' r := by
  cases h with
  | root r => exact ⟨_, _, _, rfl⟩
  | left r h => exact ⟨_, _, _, rfl⟩

/-- With another operator after it, an operator is below the left edge of the root. -/
theorem repair_cons_left (op : O) (l : OpTree O A) (a : A) (x : O × A) (xs : List (O × A)) :
    ∃ o o' l' z r, repair prec (node op l (leaf a)) (x :: xs) = node o (node o' l' z) r := by
  have h := onLeftEdge_repair prec x.1 (node op l (leaf a)) x.2 xs
  rw [repair]
  generalize repair prec (node x.1 (node op l (leaf a)) (leaf x.2)) xs = t at h ⊢
  cases h with
  | root r =>
      rw [rotate_of_not_lt prec (lt_irrefl _)]
      exact ⟨_, _, _, _, _, rfl⟩
  | @left o t r h =>
      obtain ⟨o', l', z, rfl⟩ := h.exists_node
      by_cases hlt : prec x.1 < prec o
      · rw [rotate_of_lt prec hlt]
        cases h with
        | root z => exact ⟨_, _, _, _, _, rfl⟩
        | left z h =>
            obtain ⟨o₂, l₂, z₂, rfl⟩ := h.exists_node
            exact ⟨_, _, _, _, _, rfl⟩
      · rw [rotate_of_not_lt prec hlt]
        exact ⟨_, _, _, _, _, rfl⟩

theorem exists_rotate_node (p : P) (o : O) (l r : OpTree O A) :
    ∃ o' l' r', rotate prec p (node o l r) = node o' l' r' := by
  cases l with
  | leaf a => exact ⟨_, _, _, rfl⟩
  | node o' l z =>
      by_cases hlt : p < prec o
      · exact ⟨_, _, _, rotate_of_lt prec hlt _ _ _ _⟩
      · exact ⟨_, _, _, rotate_of_not_lt prec hlt _ _⟩

/-- With an operator the result has one at the root. -/
theorem exists_repair_cons (t : OpTree O A) (x : O × A) (xs : List (O × A)) :
    ∃ o l r, repair prec t (x :: xs) = node o l r := by
  obtain ⟨o, l, r, heq⟩ := (onLeftEdge_repair prec x.1 t x.2 xs).exists_node
  rw [repair, heq]
  exact exists_rotate_node prec _ _ _ _

/-! ### Sequences that are repaired -/

/-- Once an entry is larger than the one before it, all later ones are. -/
def AscentsLast : List P → Prop
  | [] => True
  | [_] => True
  | p :: q :: ps => (p < q → (q :: ps).IsChain (· < ·)) ∧ AscentsLast (q :: ps)

instance decidableAscentsLast : ∀ ps : List P, Decidable (AscentsLast ps)
  | [] => isTrue trivial
  | [_] => isTrue trivial
  | p :: q :: ps =>
    have := decidableAscentsLast (q :: ps)
    inferInstanceAs (Decidable ((p < q → (q :: ps).IsChain (· < ·)) ∧ AscentsLast (q :: ps)))

/-- Strictly increasing precedences give the tree that leans to the right. -/
theorem repair_of_isChain (t : OpTree O A) (op : O) (a : A) (xs : List (O × A))
    (h : ((op, a) :: xs).map (fun x => prec x.1) |>.IsChain (· < ·)) :
    repair prec t ((op, a) :: xs) = node op t (rightComb a xs) := by
  induction xs generalizing t op a with
  | nil => exact rotate_of_not_lt prec (lt_irrefl _) _ _
  | cons x xs ih =>
      obtain ⟨o, b⟩ := x
      obtain ⟨hlt, hchain⟩ := List.isChain_cons_cons.mp h
      rw [repair, ih (node op t (leaf a)) o b hchain]
      exact rotate_of_lt prec hlt _ _ _ _

/-- The tree that leans to the right is grouped when precedences increase. -/
theorem rightComb_grouped (op : O) (a : A) (xs : List (O × A))
    (h : ((op, a) :: xs).map (fun x => prec x.1) |>.IsChain (· < ·)) :
    (rightComb a xs).Grouped prec ∧ (rightComb a xs).Above prec (prec op) := by
  induction xs generalizing op a with
  | nil => exact ⟨trivial, trivial⟩
  | cons x xs ih =>
      obtain ⟨o, b⟩ := x
      obtain ⟨hlt, hchain⟩ := List.isChain_cons_cons.mp h
      obtain ⟨hg, habove⟩ := ih o b hchain
      exact ⟨⟨trivial, hg, trivial, habove⟩, hlt⟩

/-- If the ascents come last, the result is grouped, and its root does not bind tighter
than the first operator. -/
theorem repair_grouped (t : OpTree O A) (op : O) (a : A) (xs : List (O × A))
    (h : AscentsLast (((op, a) :: xs).map (fun x => prec x.1))) (ht : t.Grouped prec)
    (hop : t.AtLeast prec (prec op)) :
    (repair prec t ((op, a) :: xs)).Grouped prec ∧
      ∃ o l r, repair prec t ((op, a) :: xs) = node o l r ∧ prec o ≤ prec op := by
  induction xs generalizing t op a with
  | nil =>
      rw [repair, repair, rotate_of_not_lt prec (lt_irrefl _)]
      exact ⟨⟨ht, trivial, hop, trivial⟩, op, t, leaf a, rfl, le_refl _⟩
  | cons x xs ih =>
      obtain ⟨o, b⟩ := x
      obtain ⟨hasc, hlast⟩ := h
      by_cases hlt : prec op < prec o
      · have hchain := List.isChain_cons_cons.mpr ⟨hlt, hasc hlt⟩
        obtain ⟨hg, habove⟩ := rightComb_grouped prec op a ((o, b) :: xs) hchain
        rw [repair_of_isChain prec t op a ((o, b) :: xs) hchain]
        exact ⟨⟨ht, hg, hop, habove⟩, op, t, _, rfl, le_refl _⟩
      -- the operator and its operands become the left operand of the next operator
      · have hle := le_of_not_gt hlt
        obtain ⟨hg, o', l, r, heq, hle'⟩ := ih (node op t (leaf a)) o b hlast
          ⟨ht, trivial, hop, trivial⟩ hle
        have hnot : ¬ prec op < prec o' := not_lt_of_ge (le_trans hle' hle)
        rw [repair, heq, rotate_of_not_lt prec hnot, ← heq]
        exact ⟨hg, o', l, r, heq, le_trans hle' hle⟩

/-! ### Sequences that are not repaired -/

/-- One entry for a tree that has an operator. -/
def mark (b : Bool) : OpTree O A → List Bool
  | leaf _ => []
  | node _ _ _ => [b]

/-- For each pair of neighbouring operators: whether the left one is above the right
one. -/
def leftAbove : OpTree O A → List Bool
  | leaf _ => []
  | node _ l r => l.leftAbove ++ l.mark false ++ r.mark true ++ r.leftAbove

/-- Once an entry is `true`, all later ones are. -/
def TrueLast (bs : List Bool) : Prop := bs.IsChain (fun b b' => b = true → b' = true)

theorem trueLast_of_all_false {bs : List Bool} (h : ∀ b ∈ bs, b = false) : TrueLast bs := by
  induction bs with
  | nil => exact List.isChain_nil
  | cons b bs ih =>
      obtain ⟨hb, hbs⟩ := List.forall_mem_cons.mp h
      refine List.isChain_cons.mpr ⟨fun b' _ hb' => ?_, ih hbs⟩
      rw [hb] at hb'
      cases hb'

theorem trueLast_flip {bs bs' : List Bool} (h : TrueLast (bs ++ false :: bs'))
    (hhead : ∀ b ∈ bs'.head?, b = true) : TrueLast (bs ++ true :: bs') := by
  obtain ⟨h1, h2, -⟩ := List.isChain_append.mp h
  refine List.isChain_append.mpr ⟨h1, List.isChain_cons.mpr ⟨fun b hb _ => hhead b hb, h2.tail⟩, ?_⟩
  intro b _ b' hb' _
  rw [List.head?_cons, Option.mem_some_iff] at hb'
  exact hb'.symm

/-- A rotation of the root turns at most one pair of neighbours around, and then the
operator rotated down is above the operator after it. -/
theorem rotate_trueLast (p : P) (t : OpTree O A) (h : TrueLast t.leftAbove) :
    TrueLast (rotate prec p t).leftAbove := by
  cases t with
  | leaf => exact h
  | node o l r =>
      cases l with
      | leaf => exact h
      | node o' l z =>
          by_cases hlt : p < prec o
          · rw [rotate_of_lt prec hlt]
            cases z with
            | node o₂ z₁ z₂ =>
                simp only [leftAbove, mark, List.append_assoc] at h ⊢
                exact h
            | leaf b =>
                simp only [leftAbove, mark, List.append_assoc, List.append_nil, List.nil_append] at h ⊢
                rw [← List.append_assoc] at h ⊢
                refine trueLast_flip h (fun b hb => ?_)
                cases r with
                | leaf => cases hb
                | node o₃ r₁ r₂ => exact (Option.some.inj hb).symm
          · rw [rotate_of_not_lt prec hlt]
            exact h

/-- The result of `repair` on a left-leaning tree. -/
theorem repair_trueLast (t : OpTree O A) (xs : List (O × A)) (ht : ∀ b ∈ t.leftAbove, b = false) :
    TrueLast (repair prec t xs).leftAbove := by
  induction xs generalizing t with
  | nil => exact trueLast_of_all_false ht
  | cons x xs ih =>
      refine rotate_trueLast prec _ _ (ih _ ?_)
      intro b hb
      cases t with
      | leaf => simp [leftAbove, mark] at hb
      | node o l r =>
          simp only [leftAbove, mark, List.append_nil, List.mem_append, List.mem_singleton] at hb ht
          rcases hb with hb | hb
          · exact ht b hb
          · exact hb

/-- For each pair of neighbours: whether the precedence goes up. -/
def ascents : List P → List Bool
  | [] => []
  | [_] => []
  | p :: q :: ps => decide (p < q) :: ascents (q :: ps)

theorem ascents_append (ps : List P) (p : P) (qs : List P) :
    ascents (ps ++ p :: qs) = ascents ps ++ (match ps.getLast? with
      | none => []
      | some q => [decide (q < p)]) ++ ascents (p :: qs) := by
  induction ps with
  | nil => rfl
  | cons a ps ih =>
      cases ps with
      | nil => rfl
      | cons b ps =>
          rw [List.cons_append, List.cons_append, ascents, ascents]
          rw [List.cons_append] at ih
          rw [ih, List.getLast?_cons_cons]
          rfl

/-- In a grouped tree the left neighbour is above the right one exactly when the
precedence goes up. -/
theorem Grouped.leftAbove_eq {t : OpTree O A} (h : t.Grouped prec) :
    t.leftAbove = ascents (t.ops.map prec) := by
  induction t with
  | leaf => rfl
  | node op l r ihl ihr =>
      have hle := h.2.2.1
      have hlt := h.2.2.2
      have hleft : l.mark false =
          (match (l.ops.map prec).getLast? with
            | none => []
            | some q => [decide (q < prec op)]) := by
        rcases hlast : (l.ops.map prec).getLast? with _ | q
        · cases l with
          | leaf => rfl
          | node o l₁ l₂ => simp at hlast
        · obtain ⟨o, ho, rfl⟩ := List.mem_map.mp (List.mem_of_getLast? hlast)
          have hge := h.1.le_of_mem prec hle o ho
          cases l with
          | leaf => simp at ho
          | node o' l₁ l₂ => simp [mark, not_lt_of_ge hge]
      have hright : r.mark true ++ ascents (r.ops.map prec) =
          ascents (prec op :: r.ops.map prec) := by
        rcases hops : r.ops with _ | ⟨o, os⟩
        · cases r with
          | leaf => rfl
          | node o l₁ l₂ => simp at hops
        · have hgt := h.2.1.lt_of_mem prec hlt o (hops ▸ List.mem_cons_self)
          cases r with
          | leaf => cases hops
          | node o' l₁ l₂ => simp [mark, ascents, hgt]
      rw [leftAbove, ops_node, List.map_append, List.map_cons, ascents_append, ihl h.1, ihr h.2.1,
        ← hright, ← hleft]
      simp only [List.append_assoc]

theorem isChain_of_trueLast {p : P} {ps : List P} (h : TrueLast (true :: ascents (p :: ps))) :
    (p :: ps).IsChain (· < ·) := by
  induction ps generalizing p with
  | nil => exact List.isChain_singleton p
  | cons q ps ih =>
      obtain ⟨hpq, htail⟩ := List.isChain_cons_cons.mp h
      have hlt : p < q := of_decide_eq_true (hpq rfl)
      rw [decide_eq_true hlt] at htail
      exact List.isChain_cons_cons.mpr ⟨hlt, ih htail⟩

theorem ascentsLast_of_trueLast {ps : List P} (h : TrueLast (ascents ps)) : AscentsLast ps := by
  induction ps with
  | nil => trivial
  | cons p ps ih =>
      cases ps with
      | nil => trivial
      | cons q ps =>
          refine ⟨fun hlt => ?_, ih h.tail⟩
          have h' : TrueLast (decide (p < q) :: ascents (q :: ps)) := h
          rw [decide_eq_true hlt] at h'
          exact isChain_of_trueLast h'

/-- **Which sequences are repaired.**  The result is the grouped tree if and only if,
once a precedence is larger than the one before it, all later ones are. -/
theorem repair_grouped_iff (a : A) (xs : List (O × A)) :
    (repair prec (leaf a) xs).Grouped prec ↔ AscentsLast (xs.map (fun x => prec x.1)) := by
  constructor
  · intro h
    have htrue := repair_trueLast prec (leaf a) xs (by simp [leftAbove])
    rw [h.leftAbove_eq, ops, (repair_sequence prec (leaf a) xs).2, List.map_map] at htrue
    exact ascentsLast_of_trueLast htrue
  · intro h
    cases xs with
    | nil => trivial
    | cons x xs => exact (repair_grouped prec (leaf a) x.1 x.2 xs h trivial trivial).1

end Repair

/-! ## Interpreting a tree -/

section Build

variable (bin : O → B → B → B)

/-- The value of a tree whose operands have the values `f`. -/
def build (f : A → B) : OpTree O A → B
  | leaf a => f a
  | node op l r => bin op (l.build f) (r.build f)

/-- The operands in order. -/
def leaves : OpTree O A → List A
  | leaf a => [a]
  | node _ l r => l.leaves ++ r.leaves

theorem leaves_eq (t : OpTree O A) : t.leaves = t.first :: t.rest.map Prod.snd := by
  induction t with
  | leaf => rfl
  | node op l r ihl ihr => simp [leaves, first, rest, ihl, ihr]

variable {bin}

/-- A measure that adds up over operators. -/
theorem measure_build {m : B → ℕ} (hbin : ∀ o x y, m (bin o x y) = m x + m y) (f : A → B)
    (t : OpTree O A) : m (t.build bin f) = (t.leaves.map (fun a => m (f a))).sum := by
  induction t with
  | leaf a => simp [build, leaves]
  | node op l r ihl ihr => rw [build, hbin, ihl, ihr, leaves, List.map_append, List.sum_append]

/-- **The value determines the tree**, and the values of its operands, among the trees
of one sequence: the measure tells how many operands are on each side. -/
theorem build_inj {m : B → ℕ}
    (hinj : ∀ o x y o' x' y', bin o x y = bin o' x' y' → x = x' ∧ y = y')
    (hbin : ∀ o x y, m (bin o x y) = m x + m y) {f g : A → B} {t t' : OpTree O A}
    (hfirst : t.first = t'.first) (hrest : t.rest = t'.rest)
    (hm : ∀ a ∈ t.leaves, 0 < m (f a) ∧ m (f a) = m (g a))
    (h : t.build bin f = t'.build bin g) : t = t' ∧ ∀ a ∈ t.leaves, f a = g a := by
  induction t generalizing t' with
  | leaf a =>
      cases t' with
      | leaf b =>
          obtain rfl : a = b := hfirst
          refine ⟨rfl, fun b hb => ?_⟩
          rw [List.mem_singleton.mp hb]
          exact h
      | node op' l' r' => simp [rest] at hrest
  | node op l r ihl ihr =>
      cases t' with
      | leaf b => simp [rest] at hrest
      | node op' l' r' =>
          obtain ⟨hl, hr⟩ := hinj _ _ _ _ _ _ h
          have happ : l.leaves ++ r.leaves = l'.leaves ++ r'.leaves := by
            show (node op l r).leaves = (node op' l' r').leaves
            rw [leaves_eq, leaves_eq, hfirst, hrest]
          have hsize : (l.leaves.map (fun a => m (f a))).sum =
              (l'.leaves.map (fun a => m (f a))).sum := by
            have hl' : ∀ a ∈ l'.leaves, m (f a) = m (g a) := fun a ha =>
              (hm a (show a ∈ l.leaves ++ r.leaves from happ ▸ List.mem_append_left _ ha)).2
            rw [← measure_build hbin, hl, measure_build hbin, List.map_congr_left hl']
          have hnil : ∀ as : List A, (∀ a ∈ as, a ∈ (node op l r).leaves) →
              (as.map (fun a => m (f a))).sum = 0 → as = [] := by
            intro as has hsum
            cases as with
            | nil => rfl
            | cons a as =>
                have := (hm a (has a List.mem_cons_self)).1
                rw [List.map_cons, List.sum_cons] at hsum
                omega
          have hlen : l.leaves.length = l'.leaves.length := by
            rcases List.append_eq_append_iff.mp happ with ⟨as, h1, h2⟩ | ⟨as, h1, h2⟩
            · rw [h1, List.map_append, List.sum_append] at hsize
              rw [h1, hnil as (fun a ha => by rw [leaves, h2]; simp [ha]) (by omega),
                List.append_nil]
            · rw [h1, List.map_append, List.sum_append] at hsize
              rw [h1, hnil as (fun a ha => by rw [leaves, h1]; simp [ha]) (by omega),
                List.append_nil]
          rw [leaves_eq, leaves_eq, List.length_cons, List.length_cons, List.length_map,
            List.length_map] at hlen
          obtain ⟨hrl, hcons⟩ := List.append_inj hrest (by omega)
          rw [List.cons.injEq, Prod.mk.injEq] at hcons
          obtain ⟨⟨rfl, hrf⟩, hrr⟩ := hcons
          have hfirst' : l.first = l'.first := hfirst
          obtain ⟨rfl, hfl⟩ := ihl hfirst' hrl (fun a ha => hm a (List.mem_append_left _ ha)) hl
          obtain ⟨rfl, hfr⟩ := ihr hrf hrr (fun a ha => hm a (List.mem_append_right _ ha)) hr
          refine ⟨rfl, fun a ha => ?_⟩
          rcases List.mem_append.mp ha with ha | ha
          · exact hfl a ha
          · exact hfr a ha

/-- Replace the operands. -/
def map (f : A → B) : OpTree O A → OpTree O B
  | leaf a => leaf (f a)
  | node op l r => node op (l.map f) (r.map f)

theorem build_map {C : Type*} {bin : O → C → C → C} (g : B → C) (f : A → B) (t : OpTree O A) :
    (t.map f).build bin g = t.build bin (fun a => g (f a)) := by
  induction t with
  | leaf => rfl
  | node op l r ihl ihr => rw [map, build, build, ihl, ihr]

theorem map_rotate [LinearOrder P] (prec : O → P) (p : P) (f : A → B) (t : OpTree O A) :
    (rotate prec p t).map f = rotate prec p (t.map f) := by
  cases t with
  | leaf => rfl
  | node o l r =>
      cases l with
      | leaf => rfl
      | node o' l z =>
          by_cases hlt : p < prec o
          · rw [rotate_of_lt prec hlt]
            exact (rotate_of_lt prec hlt o' (l.map f) (z.map f) (r.map f)).symm
          · rw [rotate_of_not_lt prec hlt, map, rotate_of_not_lt prec hlt]

/-- `repair` does not look at the operands. -/
theorem map_repair [LinearOrder P] (prec : O → P) (f : A → B) (t : OpTree O A)
    (xs : List (O × A)) :
    (repair prec t xs).map f = repair prec (t.map f) (xs.map (fun x => (x.1, f x.2))) := by
  induction xs generalizing t with
  | nil => rfl
  | cons x xs ih =>
      rw [repair, map_rotate, ih]
      rfl

end Build

end OpTree
