/-
# Operator precedence in the expression parser

`parser_parseBinary` builds a left-leaning chain and makes one attempt to rotate the
root for each operator while it returns.

* `parserParseExpression_eq` : on a sequence of operands and operators the parser
  returns the tree `Expr.parsed`, which is `OpTree.repair` at every level of
  parentheses;
* `parserParseExpression_grouped_iff` : this is the tree grouped by precedence and left
  associativity exactly when, at every level, once an operator binds tighter than the
  one before it, all later ones do.
-/
import MCompiler.Lib.Stopping
import MCompiler.ParserChains

open OpTree

/-! ## Expressions with their parentheses -/

/-- Expressions as they are written: operands are numbers, identifiers and expressions
in parentheses.  The text of the parentheses and operators is arbitrary. -/
inductive Expr where
  | number (digit : UInt8) (digits : Range)
  | ident (name : Range)
  | paren (opening closing : Range) (e : Expr)
  | binary (op : Operator) (left right : Expr)

namespace Expr

/-- The tokens of an expression. -/
def tokens : Expr → List Token
  | number digit digits => [⟨.NUMBER, digit :: digits⟩]
  | ident name => [⟨.ID, name⟩]
  | paren opening closing e => ⟨.PARAN_OPEN, opening⟩ :: (e.tokens ++ [⟨.PARAN_CLOSE, closing⟩])
  | binary op l r => l.tokens ++ op.1 :: r.tokens

/-- The syntax tree of an expression, without the parentheses. -/
def ast : Expr → AstNode
  | number digit digits => .number (Int64.ofInt ((rangeParseInt (digit :: digits)).getD 0))
  | ident name => .variable name false
  | paren _ _ e => e.ast
  | binary op l r => .binaryExp op.1.type l.ast r.ast false

/-- `e` is not an operator binding less tightly than `p`. -/
def AtLeast (p : ℤ) : Expr → Prop
  | binary op _ _ => p ≤ op.prec
  | _ => True

/-- `e` is not an operator binding as loosely as `p` or more so. -/
def Above (p : ℤ) : Expr → Prop
  | binary op _ _ => p < op.prec
  | _ => True

/-- `*` and `/` bind tighter than `+` and `-`, which bind tighter than comparisons, and
operators of equal precedence group to the left; an expression in parentheses is one
operand. -/
def Grouped : Expr → Prop
  | number _ _ => True
  | ident _ => True
  | paren _ _ e => e.Grouped
  | binary op l r => l.Grouped ∧ r.Grouped ∧ l.AtLeast op.prec ∧ r.Above op.prec

instance (p : ℤ) (e : Expr) : Decidable (e.AtLeast p) := by
  cases e <;> unfold AtLeast <;> infer_instance

instance (p : ℤ) (e : Expr) : Decidable (e.Above p) := by
  cases e <;> unfold Above <;> infer_instance

instance decidableGrouped : ∀ e : Expr, Decidable e.Grouped
  | number _ _ => isTrue trivial
  | ident _ => isTrue trivial
  | paren _ _ e => decidableGrouped e
  | binary op l r =>
    have := decidableGrouped l
    have := decidableGrouped r
    inferInstanceAs (Decidable (l.Grouped ∧ r.Grouped ∧ l.AtLeast op.prec ∧ r.Above op.prec))

/-- The precedences of the operators outside parentheses, in order. -/
def precs : Expr → List ℤ
  | binary op l r => l.precs ++ op.prec :: r.precs
  | _ => []

/-- Inside each pair of parentheses, once an operator binds tighter than the one before
it, all later ones do. -/
def InnerRepairable : Expr → Prop
  | number _ _ => True
  | ident _ => True
  | paren _ _ e => AscentsLast e.precs ∧ e.InnerRepairable
  | binary _ l r => l.InnerRepairable ∧ r.InnerRepairable

/-- At every level, once an operator binds tighter than the one before it, all later
ones do. -/
def Repairable (e : Expr) : Prop := AscentsLast e.precs ∧ e.InnerRepairable

instance decidableInnerRepairable : ∀ e : Expr, Decidable e.InnerRepairable
  | number _ _ => isTrue trivial
  | ident _ => isTrue trivial
  | paren _ _ e =>
    have := decidableInnerRepairable e
    inferInstanceAs (Decidable (AscentsLast e.precs ∧ e.InnerRepairable))
  | binary _ l r =>
    have := decidableInnerRepairable l
    have := decidableInnerRepairable r
    inferInstanceAs (Decidable (l.InnerRepairable ∧ r.InnerRepairable))

instance (e : Expr) : Decidable e.Repairable := inferInstanceAs (Decidable (_ ∧ _))

/-! ## Expressions as operator trees -/

/-- The operators outside parentheses as a tree over the operands. -/
def tree : Expr → OpTree Operator Expr
  | binary op l r => .node op l.tree r.tree
  | e => .leaf e

/-- What the parser reads for an expression: the node of the first operand, and the
operators with the node of the operand after each.  An operand in parentheses is
repaired. -/
def operands : Expr → AstNode × List (Operator × AstNode)
  | paren _ _ e =>
      ((repair Operator.prec (.leaf e.operands.1) e.operands.2).build binaryNode id, [])
  | binary op l r => (l.operands.1, l.operands.2 ++ (op, r.operands.1) :: r.operands.2)
  | e => (e.ast, [])

/-- The node the parser makes of an operand. -/
def operand (e : Expr) : AstNode := e.operands.1

/-- The tree the parser makes of an expression. -/
def parsed (e : Expr) : AstNode :=
  (repair Operator.prec (.leaf e.operands.1) e.operands.2).build binaryNode id

theorem operand_paren (opening closing : Range) (e : Expr) :
    (paren opening closing e).operand = e.parsed := rfl

theorem operands_eq (e : Expr) :
    e.operands = (e.tree.first.operand, e.tree.rest.map (fun x => (x.1, x.2.operand))) := by
  induction e with
  | number => rfl
  | ident => rfl
  | paren => rfl
  | binary op l r ihl ihr =>
      rw [operands, ihl, ihr]
      simp [tree, first, rest, operand]

/-- The tree the parser makes, with the operands still in place. -/
theorem parsed_eq (e : Expr) :
    e.parsed = (repair Operator.prec (.leaf e.tree.first) e.tree.rest).build binaryNode operand := by
  have hmap := map_repair Operator.prec operand (.leaf e.tree.first) e.tree.rest
  rw [parsed, operands_eq]
  exact (congrArg (build binaryNode id) hmap.symm).trans (build_map id operand _)

theorem ast_eq (e : Expr) : e.ast = e.tree.build binaryNode ast := by
  induction e with
  | number => rfl
  | ident => rfl
  | paren => rfl
  | binary op l r ihl ihr =>
      rw [ast, ihl, ihr]
      rfl

theorem precs_eq (e : Expr) : e.precs = e.tree.rest.map (fun x => x.1.prec) := by
  induction e with
  | number => rfl
  | ident => rfl
  | paren => rfl
  | binary op l r ihl ihr =>
      rw [precs, ihl, ihr]
      simp [tree, rest]

theorem tokens_eq (e : Expr) : e.tokens =
    e.tree.first.tokens ++ e.tree.rest.flatMap (fun x => x.1.1 :: x.2.tokens) := by
  induction e with
  | number => simp [tree, first, rest, tokens]
  | ident => simp [tree, first, rest, tokens]
  | paren => simp [tree, first, rest, tokens]
  | binary op l r ihl ihr =>
      rw [tokens, ihl, ihr]
      simp [tree, first, rest]

theorem Grouped.tree {e : Expr} (h : e.Grouped) : e.tree.Grouped Operator.prec := by
  induction e with
  | number => trivial
  | ident => trivial
  | paren => trivial
  | binary op l r ihl ihr =>
      obtain ⟨hl, hr, hlop, hrop⟩ := h
      refine ⟨ihl hl, ihr hr, ?_, ?_⟩
      · cases l with
        | binary op' l₁ l₂ => exact hlop
        | _ => trivial
      · cases r with
        | binary op' l₁ l₂ => exact hrop
        | _ => trivial

/-! ## When the parser's tree is the grouped one -/

/-- The number of operands in a syntax tree. -/
def operandCount : AstNode → ℕ
  | .binaryExp _ l r _ => operandCount l + operandCount r
  | _ => 1

theorem operandCount_pos (node : AstNode) : 0 < operandCount node := by
  induction node using operandCount.induct with
  | case1 op l r wild ihl ihr =>
      rw [operandCount]
      omega
  | case2 node h =>
      unfold operandCount
      split
      · exact absurd rfl (h _ _ _ _)
      · exact Nat.one_pos

/-- The parser neither loses nor invents operands. -/
theorem operandCount_operands (e : Expr) :
    operandCount e.operands.1 + (e.operands.2.map (fun x => operandCount x.2)).sum =
      operandCount e.ast := by
  induction e with
  | number => rfl
  | ident => rfl
  | paren opening closing e ih =>
      have hseq := repair_sequence Operator.prec (.leaf e.operands.1) e.operands.2
      rw [operands, measure_build (m := operandCount) (fun _ _ _ => rfl), leaves_eq, hseq.1, hseq.2]
      simp only [first, rest, List.nil_append, List.map_cons, List.map_map, List.sum_cons,
        List.map_nil, List.sum_nil, Nat.add_zero]
      exact ih
  | binary op l r ihl ihr =>
      rw [operands, ast, operandCount, ← ihl, ← ihr]
      simp only [List.map_append, List.map_cons, List.sum_append, List.sum_cons]
      omega

/-- The operands of the tree are not binary. -/
theorem operandCount_leaf {e a : Expr} (ha : a ∈ e.tree.leaves) :
    operandCount a.operand = operandCount a.ast := by
  induction e with
  | binary op l r ihl ihr =>
      rcases List.mem_append.mp ha with ha | ha
      · exact ihl ha
      · exact ihr ha
  | number =>
      rw [List.mem_singleton.mp ha]
      rfl
  | ident =>
      rw [List.mem_singleton.mp ha]
      rfl
  | paren opening closing e _ =>
      rw [List.mem_singleton.mp ha]
      have hcount := operandCount_operands (paren opening closing e)
      simp only [operands, List.map_nil, List.sum_nil, Nat.add_zero] at hcount
      exact hcount

/-- One level of parentheses: the parser makes the right tree exactly when it reads the
operands right and the ascents of the precedences come last. -/
theorem parsed_eq_ast_iff {e : Expr} (h : e.Grouped) :
    e.parsed = e.ast ↔ AscentsLast e.precs ∧ ∀ a ∈ e.tree.leaves, a.operand = a.ast := by
  have hfirst : (repair Operator.prec (.leaf e.tree.first) e.tree.rest).first = e.tree.first :=
    (repair_sequence Operator.prec (.leaf e.tree.first) e.tree.rest).1
  have hrest : (repair Operator.prec (.leaf e.tree.first) e.tree.rest).rest = e.tree.rest :=
    (repair_sequence Operator.prec (.leaf e.tree.first) e.tree.rest).2
  have hiff := repair_grouped_iff Operator.prec e.tree.first e.tree.rest
  have hleaves : (repair Operator.prec (.leaf e.tree.first) e.tree.rest).leaves =
      e.tree.leaves := by
    rw [leaves_eq, leaves_eq, hfirst, hrest]
  rw [parsed_eq, ast_eq, precs_eq, ← hiff]
  constructor
  · intro heq
    have hinj : ∀ o x y o' x' y', binaryNode o x y = binaryNode o' x' y' → x = x' ∧ y = y' := by
      intro o x y o' x' y' hbin
      injection hbin with _ hx hy
      exact ⟨hx, hy⟩
    obtain ⟨htree, hall⟩ := build_inj (m := operandCount) hinj (fun _ _ _ => rfl) hfirst hrest
      (fun a ha => ⟨operandCount_pos _, operandCount_leaf (hleaves ▸ ha)⟩) heq
    refine ⟨by rw [htree]; exact h.tree, fun a ha => ?_⟩
    rw [hall a (hleaves ▸ ha)]
  · rintro ⟨hgrouped, hall⟩
    rw [grouped_unique Operator.prec hgrouped h.tree hfirst hrest]
    have hbuild : ∀ t : OpTree Operator Expr, (∀ a ∈ t.leaves, a.operand = a.ast) →
        t.build binaryNode operand = t.build binaryNode ast := by
      intro t ht
      induction t with
      | leaf a => exact ht a (List.mem_singleton.mpr rfl)
      | node op l r ihl ihr =>
          rw [build, build, ihl (fun a ha => ht a (List.mem_append_left _ ha)),
            ihr (fun a ha => ht a (List.mem_append_right _ ha))]
    exact hbuild _ hall

/-- The operands are read right exactly when all levels below are repaired. -/
theorem operand_eq_ast_iff {e : Expr} (h : e.Grouped) :
    (∀ a ∈ e.tree.leaves, a.operand = a.ast) ↔ e.InnerRepairable := by
  induction e with
  | number => simp [tree, leaves, InnerRepairable, operand, operands]
  | ident => simp [tree, leaves, InnerRepairable, operand, operands]
  | paren opening closing e ih =>
      have he : e.Grouped := h
      have hone : (∀ a ∈ (paren opening closing e).tree.leaves, a.operand = a.ast) ↔
          e.parsed = e.ast := by
        simp [tree, leaves, operand_paren, ast]
      rw [hone, parsed_eq_ast_iff he, ih he]
      exact Iff.rfl
  | binary op l r ihl ihr =>
      rw [InnerRepairable, ← ihl h.1, ← ihr h.2.1, tree, leaves, List.forall_mem_append]

/-- **The parser's tree is the grouped one exactly for repairable expressions.** -/
theorem parsed_eq_ast_iff_repairable {e : Expr} (h : e.Grouped) :
    e.parsed = e.ast ↔ e.Repairable := by
  rw [parsed_eq_ast_iff h, operand_eq_ast_iff h, Repairable]

end Expr

/-! ## What the parser returns -/

section Reading

variable {R : Type} {tokenNext : R → Token × R}

namespace Expr

theorem operands_isNull (e : Expr) :
    e.operands.1.isNull = false ∧ ∀ x ∈ e.operands.2, x.2.isNull = false := by
  induction e with
  | number => exact ⟨rfl, fun x hx => by cases hx⟩
  | ident => exact ⟨rfl, fun x hx => by cases hx⟩
  | paren opening closing e ih =>
      refine ⟨?_, fun x hx => by cases hx⟩
      show ((repair Operator.prec (.leaf e.operands.1) e.operands.2).build binaryNode id).isNull =
        false
      cases hrep : repair Operator.prec (.leaf e.operands.1) e.operands.2 with
      | node op l r => rfl
      | leaf a =>
          have hfirst := (repair_sequence Operator.prec (.leaf e.operands.1) e.operands.2).1
          rw [hrep] at hfirst
          obtain rfl : a = e.operands.1 := hfirst
          exact ih.1
  | binary op l r ihl ihr =>
      refine ⟨ihl.1, fun x hx => ?_⟩
      rw [operands, List.mem_append, List.mem_cons] at hx
      rcases hx with hx | rfl | hx
      · exact ihl.2 x hx
      · exact ihr.1
      · exact ihr.2 x hx

theorem operand_isNull (e : Expr) : e.operand.isNull = false := (operands_isNull e).1

/-- Reading the operand `a` with enough fuel. -/
def ReadsOperand (tokenNext : R → Token × R) (a : Expr) : Prop :=
  ∀ (fuel : ℕ) (p : Parser R) (ts : List Token) (r' : R),
    2 * a.tokens.length ≤ fuel + 1 → Upcoming tokenNext p (a.tokens ++ ts) r' →
    ∃ p', parserReadAtomInternal tokenNext fuel p false = .ok (a.operand, p') ∧
      Upcoming tokenNext p' ts r' ∧ p'.error = p.error

theorem tokens_length_pos (e : Expr) : 0 < e.tokens.length := by
  cases e with
  | binary op l r =>
      rw [tokens, List.length_append, List.length_cons]
      omega
  | _ => exact Nat.succ_pos _

/-- An expression is read if its operands are. -/
theorem parserParseExpression_of_operands (e : Expr)
    (he : ∀ a ∈ e.tree.leaves, ReadsOperand tokenNext a)
    (fuel : ℕ) (hfuel : 2 * e.tokens.length + 1 ≤ fuel) (p : Parser R) (stop : Token)
    (hstop : getPresedence stop.type = -1) (ts : List Token) (r' : R)
    (hp : Upcoming tokenNext p (e.tokens ++ stop :: ts) r') :
    ∃ p', parserParseExpression tokenNext fuel p = .ok (e.parsed, p') ∧
      Upcoming tokenNext p' (stop :: ts) r' ∧ p'.error = p.error := by
  have hgap : ∀ xs : List (Operator × Expr), ¬ HasGap operand xs := by
    rintro xs ⟨x, -, hx⟩
    exact Bool.false_ne_true ((operand_isNull x.2).symm.trans hx)
  have hreads : ∀ a ∈ e.tree.leaves,
      ReadsAs tokenNext tokens operand (fun _ => false) false a := he
  rw [leaves_eq] at hreads
  obtain ⟨hfirst, hrest⟩ := List.forall_mem_cons.mp hreads
  rw [tokens_eq] at hp hfuel
  obtain ⟨p₁, hparse, hp₁, herr⟩ := parserParseExpression_chain e.tree.first e.tree.rest hfirst
    (fun x hx => hrest x.2 (List.mem_map_of_mem hx)) (tokens_length_pos e.tree.first)
    ⟨hgap _, fun hnull => absurd ((operand_isNull e.tree.first).symm.trans hnull)
      Bool.false_ne_true⟩ fuel hfuel p stop (.inr hstop) ts r' hp
  rw [chainNode_of_not_gap (hgap _), ← parsed_eq] at hparse
  have hset : (e.tree.rest.any fun _ => false) = false := List.any_eq_false.mpr fun _ _ h =>
    Bool.false_ne_true h
  refine ⟨p₁, hparse, hp₁, ?_⟩
  rw [herr, hset]
  rfl

/-- Every operand is read, by induction on the nesting of parentheses. -/
theorem readsOperand (e : Expr) : ∀ a ∈ e.tree.leaves, ReadsOperand tokenNext a := by
  induction e with
  | number digit digits =>
      intro a ha
      rw [List.mem_singleton.mp ha]
      intro fuel p ts r' hfuel hp
      obtain ⟨fuel, rfl⟩ : ∃ n, fuel = n + 1 := ⟨fuel - 1, by simp [tokens] at hfuel; omega⟩
      obtain ⟨p₁, hnext, hp₁, herr⟩ := Upcoming.next hp
      obtain ⟨n, hn⟩ := rangeParseInt_cons digit digits
      refine ⟨p₁, ?_, hp₁, herr⟩
      rw [parserReadAtomInternal, hnext]
      simp [operand, operands, ast, hn]
  | ident name =>
      intro a ha
      rw [List.mem_singleton.mp ha]
      intro fuel p ts r' hfuel hp
      obtain ⟨fuel, rfl⟩ : ∃ n, fuel = n + 1 := ⟨fuel - 1, by simp [tokens] at hfuel; omega⟩
      obtain ⟨p₁, hnext, hp₁, herr⟩ := Upcoming.next hp
      refine ⟨p₁, ?_, hp₁, herr⟩
      rw [parserReadAtomInternal, hnext]
      rfl
  | paren opening closing e ih =>
      intro a ha
      rw [List.mem_singleton.mp ha]
      intro fuel p ts r' hfuel hp
      simp only [tokens, List.length_cons, List.length_append, List.length_nil, List.cons_append,
        List.append_assoc, List.nil_append] at hfuel hp
      obtain ⟨fuel, rfl⟩ : ∃ n, fuel = n + 1 := ⟨fuel - 1, by omega⟩
      obtain ⟨p₁, hnext, hp₁, herr₁⟩ := Upcoming.next hp
      obtain ⟨p₂, hparse, hp₂, herr₂⟩ := parserParseExpression_of_operands e ih fuel (by omega) p₁
        ⟨.PARAN_CLOSE, closing⟩ rfl ts r' hp₁
      obtain ⟨p₃, hclose, hp₃, herr₃⟩ := Upcoming.next hp₂
      refine ⟨p₃, ?_, hp₃, by rw [herr₃, herr₂, herr₁]⟩
      rw [parserReadAtomInternal, hnext]
      simp [hparse, ok_bind, hclose, operand_paren]
  | binary op l r ihl ihr =>
      intro a ha
      rcases List.mem_append.mp ha with ha | ha
      · exact ihl a ha
      · exact ihr a ha

/-- **What `parser_parseExpression` returns** for the tokens of an expression followed by
a token that is not an operator. -/
theorem parserParseExpression_eq (e : Expr) (fuel : ℕ) (hfuel : 2 * e.tokens.length + 1 ≤ fuel)
    (p : Parser R) (stop : Token) (hstop : getPresedence stop.type = -1) (ts : List Token) (r' : R)
    (hp : Upcoming tokenNext p (e.tokens ++ stop :: ts) r') :
    ∃ p', parserParseExpression tokenNext fuel p = .ok (e.parsed, p') ∧
      Upcoming tokenNext p' (stop :: ts) r' ∧ p'.error = p.error :=
  parserParseExpression_of_operands e (readsOperand e) fuel hfuel p stop hstop ts r' hp

/-! ## Every sequence has a grouped expression -/

/-- An expression from a tree over operands. -/
def ofTree (t : OpTree Operator Expr) : Expr := t.build binary id

theorem ofTree_tokens (t : OpTree Operator Expr) : (ofTree t).tokens =
    t.first.tokens ++ t.rest.flatMap (fun x => x.1.1 :: x.2.tokens) := by
  induction t with
  | leaf a => simp [ofTree, build, first, rest]
  | node op l r ihl ihr =>
      show (ofTree l).tokens ++ op.1 :: (ofTree r).tokens = _
      rw [ihl, ihr]
      simp [first, rest]

/-- An operand: not an operator. -/
def IsOperand : Expr → Prop
  | binary _ _ _ => False
  | _ => True

theorem ofTree_grouped {t : OpTree Operator Expr} (h : t.Grouped Operator.prec)
    (hleaf : ∀ a ∈ t.leaves, a.Grouped ∧ a.IsOperand) : (ofTree t).Grouped := by
  have hat : ∀ (t : OpTree Operator Expr) (p : ℤ), t.AtLeast Operator.prec p →
      (∀ a ∈ t.leaves, a.Grouped ∧ a.IsOperand) → (ofTree t).AtLeast p ∧
        (t.Above Operator.prec p → (ofTree t).Above p) := by
    intro t p hp hall
    cases t with
    | node op l r => exact ⟨hp, id⟩
    | leaf a =>
        obtain ⟨-, ha⟩ := hall a (List.mem_singleton.mpr rfl)
        cases a with
        | binary op l r => exact ha.elim
        | _ => exact ⟨trivial, fun _ => trivial⟩
  have hweak : ∀ (t : OpTree Operator Expr) (p : ℤ), t.Above Operator.prec p →
      t.AtLeast Operator.prec p := by
    intro t p hp
    cases t with
    | leaf => trivial
    | node op l r => exact le_of_lt hp
  induction t with
  | leaf a => exact (hleaf a (List.mem_singleton.mpr rfl)).1
  | node op l r ihl ihr =>
      obtain ⟨hl, hr, hlop, hrop⟩ := h
      have hll := fun a ha => hleaf a (List.mem_append_left _ ha)
      have hlr := fun a ha => hleaf a (List.mem_append_right _ ha)
      exact ⟨ihl hl hll, ihr hr hlr, (hat l _ hlop hll).1, (hat r _ (hweak r _ hrop) hlr).2 hrop⟩

/-- The grouped operands of an expression. -/
theorem exists_operands (e : Expr) : ∃ (a : Expr) (xs : List (Operator × Expr)),
    (∀ b ∈ a :: xs.map Prod.snd, b.Grouped ∧ b.IsOperand) ∧
      e.tokens = a.tokens ++ xs.flatMap (fun x => x.1.1 :: x.2.tokens) := by
  induction e with
  | number digit digits => exact ⟨number digit digits, [], by simp [Grouped, IsOperand], by simp⟩
  | ident name => exact ⟨ident name, [], by simp [Grouped, IsOperand], by simp⟩
  | paren opening closing e ih =>
      obtain ⟨a, xs, hall, htok⟩ := ih
      obtain ⟨t, ht, hfirst, hrest⟩ := exists_grouped Operator.prec a xs
      have hg : (ofTree t).Grouped := by
        apply ofTree_grouped ht
        rw [leaves_eq, hfirst, hrest]
        exact hall
      refine ⟨paren opening closing (ofTree t), [], ?_, ?_⟩
      · intro b hb
        rw [List.map_nil, List.mem_singleton] at hb
        subst hb
        exact ⟨hg, trivial⟩
      · rw [tokens, tokens, ofTree_tokens, hfirst, hrest, htok]
        simp
  | binary op l r ihl ihr =>
      obtain ⟨a, xs, hall, htok⟩ := ihl
      obtain ⟨b, ys, hall', htok'⟩ := ihr
      refine ⟨a, xs ++ (op, b) :: ys, ?_, ?_⟩
      · intro c hc
        rw [List.map_append, List.map_cons, ← List.cons_append, List.mem_append] at hc
        rcases hc with hc | hc
        · exact hall c hc
        · exact hall' c hc
      · rw [tokens, htok, htok']
        simp

/-- **Every expression can be regrouped**: its tokens are those of a grouped one. -/
theorem exists_grouped_tokens (e : Expr) : ∃ g : Expr, g.Grouped ∧ g.tokens = e.tokens := by
  obtain ⟨a, xs, hall, htok⟩ := exists_operands e
  obtain ⟨t, ht, hfirst, hrest⟩ := exists_grouped Operator.prec a xs
  refine ⟨ofTree t, ?_, by rw [ofTree_tokens, hfirst, hrest, htok]⟩
  apply ofTree_grouped ht
  rw [leaves_eq, hfirst, hrest]
  exact hall

end Expr

end Reading

/-! ## Precedence and associativity -/

/-- **The parser groups by precedence exactly when the ascents come last.**  For the
tokens of a grouped expression, followed by a token that is not an operator, the
parser returns the expression's tree if and only if at every level of parentheses,
once an operator binds tighter than the one before it, all later ones do. -/
theorem parserParseExpression_grouped_iff {R : Type} (tokenNext : R → Token × R) (e : Expr)
    (he : e.Grouped) (stop : Token) (hstop : getPresedence stop.type = -1) (ts : List Token)
    (p : Parser R) (r' : R) (hp : Upcoming tokenNext p (e.tokens ++ stop :: ts) r')
    (fuel : ℕ) (hfuel : 2 * e.tokens.length + 1 ≤ fuel) :
    (∃ p', parserParseExpression tokenNext fuel p = .ok (e.ast, p')) ↔ e.Repairable := by
  obtain ⟨p₁, hparse, -⟩ := e.parserParseExpression_eq fuel hfuel p stop hstop ts r' hp
  rw [← Expr.parsed_eq_ast_iff_repairable he, hparse]
  constructor
  · rintro ⟨p', heq⟩
    exact congrArg Prod.fst (Except.ok.inj heq)
  · intro heq
    exact ⟨p₁, by rw [heq]⟩

/-- An operator without text. -/
def operatorOf (type : TokenType) (h : getPresedence type ≠ -1) : Operator := ⟨⟨type, []⟩, h⟩

/-- `a > b + 2 * (c - d)` is grouped by precedence. -/
theorem parserParseExpression_grouped_three_levels :
    let e : Expr := .binary (operatorOf .GREATER (by decide)) (.ident [97])
      (.binary (operatorOf .PLUS (by decide)) (.ident [98])
        (.binary (operatorOf .MUL (by decide)) (.number 50 [])
          (.paren [] [] (.binary (operatorOf .MINUS (by decide)) (.ident [99]) (.ident [100])))))
    ∃ p', parserParseExpression streamNext 100 { reader := e.tokens ++ [⟨.SEMI_COLON, []⟩] } =
      .ok (e.ast, p') := by
  intro e
  exact (parserParseExpression_grouped_iff streamNext e (by decide) ⟨.SEMI_COLON, []⟩ (by decide)
    [] _ [] (upcoming_stream _) 100 (by decide)).mpr (by decide)

/-- **A tight operator between two loose ones.**  `a + b * c + d` is returned as
`((a + b) * c) + d`. -/
theorem parserParseExpression_not_grouped :
    ¬ ∀ (e : Expr), e.Grouped → ∀ stop : Token, getPresedence stop.type = -1 →
      ∃ p', parserParseExpression streamNext (2 * e.tokens.length + 1)
        { reader := e.tokens ++ [stop] } = .ok (e.ast, p') := by
  intro hclaim
  let plus : Operator := operatorOf .PLUS (by decide)
  let times : Operator := operatorOf .MUL (by decide)
  obtain ⟨p', hparse⟩ := hclaim (.binary plus (.binary plus (.ident [97])
    (.binary times (.ident [98]) (.ident [99]))) (.ident [100])) (by decide)
    ⟨.SEMI_COLON, []⟩ (by decide)
  have hparsed := congrArg Prod.fst (Except.ok.inj hparse)
  injection hparsed with _ hleft
  injection hleft with hop
  cases hop
