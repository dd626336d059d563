/-
# Chains of operands and operators

`parser_parseBinary` reads operators and operands until it meets another token, whatever
the operands are made of.  Here they are of any type `A`, with the tokens of an operand,
the node that the parser makes of it, which may be the null pointer, and whether the
reading of it sets the error.

* `parserParseBinary_chain` : the parser returns the tree of `OpTree.repair`, or the null
  pointer if an operand after an operator is missing;
* `rotateResult_build` : the rotation at the end follows no null pointer, unless the very
  first operand is missing and there is only one operator.
-/
import MCompiler.Parser
import MCompiler.Lib.OpTree
import Mathlib.Data.Int.Order.Basic

open OpTree

/-! ## Operators -/

/-- The token of an operator. -/
abbrev Operator := { token : Token // getPresedence token.type ≠ -1 }

/-- The precedence of an operator. -/
def Operator.prec (op : Operator) : ℤ := getPresedence op.1.type

/-- The tree the parser makes of an operator and its operands. -/
def binaryNode (op : Operator) (left right : AstNode) : AstNode :=
  .binaryExp op.1.type left right false

/-! ## Reading tokens -/

section Reading

variable {R : Type} (tokenNext : R → Token × R)

/-- The reader `r` yields the tokens `ts` and is `r'` after them. -/
def Reads : R → List Token → R → Prop
  | r, [], r' => r = r'
  | r, t :: ts, r' => ∃ r₁, tokenNext r = (t, r₁) ∧ Reads r₁ ts r'

/-- The next tokens of the parser, the one peeked at included, are `ts`. -/
def Upcoming (p : Parser R) (ts : List Token) (r' : R) : Prop :=
  if p.hasPeek then ∃ ts', ts = p.peek :: ts' ∧ Reads tokenNext p.reader ts' r'
  else Reads tokenNext p.reader ts r'

variable {tokenNext}

/-- Taking the next token. -/
theorem Upcoming.next {p : Parser R} {t : Token} {ts : List Token} {r' : R}
    (h : Upcoming tokenNext p (t :: ts) r') : ∃ p', parserNext tokenNext p = (t, p') ∧
      Upcoming tokenNext p' ts r' ∧ p'.error = p.error := by
  unfold Upcoming at h
  unfold parserNext
  by_cases hpeek : p.hasPeek
  · rw [if_pos hpeek] at h ⊢
    obtain ⟨ts', heq, hreads⟩ := h
    obtain ⟨rfl, rfl⟩ := List.cons.inj heq
    exact ⟨_, rfl, hreads, rfl⟩
  · rw [if_neg hpeek] at h ⊢
    obtain ⟨r₁, hnext, hreads⟩ := h
    refine ⟨{ p with reader := r₁ }, by rw [hnext], ?_, rfl⟩
    unfold Upcoming
    rw [if_neg hpeek]
    exact hreads

/-- Peeking at the next token. -/
theorem Upcoming.peekToken {p : Parser R} {t : Token} {ts : List Token} {r' : R}
    (h : Upcoming tokenNext p (t :: ts) r') : ∃ p', parserPeekToken tokenNext p = (t, p') ∧
      Upcoming tokenNext p' (t :: ts) r' ∧ p'.error = p.error := by
  have h' := h
  unfold Upcoming at h
  unfold parserPeekToken
  by_cases hpeek : p.hasPeek
  · rw [if_pos hpeek] at h ⊢
    obtain ⟨ts', heq, hreads⟩ := h
    obtain ⟨rfl, rfl⟩ := List.cons.inj heq
    exact ⟨p, rfl, h', rfl⟩
  · rw [if_neg hpeek] at h ⊢
    obtain ⟨r₁, hnext, hreads⟩ := h
    exact ⟨{ p with reader := r₁, peek := t, hasPeek := true }, by rw [hnext],
      ⟨ts, rfl, hreads⟩, rfl⟩

/-! ### Tokens that have been taken -/

/-- From `p` the tokens `ts` have been taken, and the parser is `p'`. -/
def Takes (tokenNext : R → Token × R) (p : Parser R) (ts : List Token) (p' : Parser R) : Prop :=
  ∀ us r', Upcoming tokenNext p' us r' → Upcoming tokenNext p (ts ++ us) r'

theorem Takes.trans {p p₁ p₂ : Parser R} {ts us : List Token} (h : Takes tokenNext p ts p₁)
    (h' : Takes tokenNext p₁ us p₂) : Takes tokenNext p (ts ++ us) p₂ := by
  intro vs r' hvs
  rw [List.append_assoc]
  exact h _ r' (h' vs r' hvs)

theorem parserNext_takes {p p' : Parser R} {t : Token}
    (h : parserNext tokenNext p = (t, p')) :
    Takes tokenNext p [t] p' ∧ p'.error = p.error := by
  unfold parserNext at h
  by_cases hpeek : p.hasPeek
  · rw [if_pos hpeek] at h
    cases h
    refine ⟨fun us r' hus => ?_, rfl⟩
    unfold Upcoming
    rw [if_pos hpeek]
    exact ⟨us, rfl, hus⟩
  · rw [if_neg hpeek] at h
    cases h
    refine ⟨fun us r' hus => ?_, rfl⟩
    unfold Upcoming at hus ⊢
    rw [if_neg hpeek] at hus ⊢
    exact ⟨_, rfl, hus⟩

theorem parserPeekToken_takes {p p' : Parser R} {t : Token}
    (h : parserPeekToken tokenNext p = (t, p')) :
    Takes tokenNext p [] p' ∧ p'.error = p.error ∧ (parserNext tokenNext p').1 = t := by
  unfold parserPeekToken at h
  by_cases hpeek : p.hasPeek
  · rw [if_pos hpeek] at h
    cases h
    refine ⟨fun us r' hus => hus, rfl, ?_⟩
    rw [parserNext, if_pos hpeek]
  · rw [if_neg hpeek] at h
    cases h
    refine ⟨fun us r' hus => ?_, rfl, rfl⟩
    obtain ⟨ts', rfl, hreads⟩ := hus
    unfold Upcoming
    rw [if_neg hpeek]
    exact ⟨_, rfl, hreads⟩

end Reading

/-- The reader of a list of tokens. -/
def streamNext : List Token → Token × List Token
  | [] => (⟨.EEOF, []⟩, [])
  | t :: ts => (t, ts)

theorem upcoming_stream (ts : List Token) : Upcoming streamNext { reader := ts } ts [] := by
  have hreads : ∀ ts : List Token, Reads streamNext ts ts [] := by
    intro ts
    induction ts with
    | nil => rfl
    | cons t ts ih => exact ⟨ts, rfl, ih⟩
  exact hreads ts

/-! ## Rotations -/

section Nodes

variable {A : Type} {node : A → AstNode}

/-- What holds of an operator node if it does of both children holds of a tree if it does
of all operands. -/
theorem build_iff {P : AstNode → Prop}
    (hbin : ∀ op l r, P (binaryNode op l r) ↔ P l ∧ P r) (t : OpTree Operator A) :
    P (t.build binaryNode node) ↔ ∀ a ∈ t.leaves, P (node a) := by
  induction t with
  | leaf a => exact (List.forall_mem_singleton (p := fun a => P (node a))).symm
  | node op l r ihl ihr => rw [leaves, List.forall_mem_append, ← ihl, ← ihr, ← hbin, build]

/-- A root that does not bind tighter is not rotated. -/
theorem rotateResult_of_le {opPrec : ℤ} {op : TokenType} {left : AstNode} (right : AstNode)
    (hnull : left.isNull = false) (h : ¬ getPresedence op > opPrec) :
    rotateResult opPrec (.binaryExp op left right false) =
      .ok (.binaryExp op left right false) := by
  cases left with
  | null => cases hnull
  | binaryExp => exact if_neg h
  | _ => rfl

/-- The rotation at the end of `parser_parseBinary` is the rotation of the tree, if what
is left of the operator is there. -/
theorem rotateResult_build (op : Operator) {l t : OpTree Operator A} (h : OnLeftEdge op l t)
    (hleft : (l.build binaryNode node).isNull = false) :
    rotateResult op.prec (t.build binaryNode node) =
      .ok ((rotate Operator.prec op.prec t).build binaryNode node) := by
  cases h with
  -- the operator itself is the root
  | root r =>
      rw [rotate_of_not_lt Operator.prec (lt_irrefl _)]
      exact rotateResult_of_le _ hleft (lt_irrefl op.prec)
  | @left o t r h =>
      obtain ⟨o', l', z, rfl⟩ := h.exists_node
      by_cases hlt : op.prec < o.prec
      · rw [rotate_of_lt Operator.prec hlt]
        exact if_pos hlt
      · rw [rotate_of_not_lt Operator.prec hlt]
        exact if_neg hlt

/-- With another operator after it, an operator is not the root when its turn to be
rotated comes, so that nothing is asked of what is left of it. -/
theorem rotateResult_build_next (op : Operator) (t : OpTree Operator A) (a : A)
    (x : Operator × A) (xs : List (Operator × A)) :
    rotateResult op.prec
        ((repair Operator.prec (.node op t (.leaf a)) (x :: xs)).build binaryNode node) =
      .ok ((rotate Operator.prec op.prec
        (repair Operator.prec (.node op t (.leaf a)) (x :: xs))).build binaryNode node) := by
  obtain ⟨o, o', l', z, r, heq⟩ := repair_cons_left Operator.prec op t a x xs
  rw [heq]
  by_cases hlt : op.prec < o.prec
  · rw [rotate_of_lt Operator.prec hlt]
    exact if_pos hlt
  · rw [rotate_of_not_lt Operator.prec hlt]
    exact if_neg hlt

end Nodes

/-! ## Reading a chain -/

/-- The error of a group without its closing parenthesis. -/
def groupError : String := "expected ')' a the end of paran expression"

/-- The error of the parser after a reading that sets it or leaves it. -/
def errorAfter (set : Bool) (error : Option String) : Option String :=
  if set then some groupError else error

theorem errorAfter_errorAfter (set set' : Bool) (error : Option String) :
    errorAfter set' (errorAfter set error) = errorAfter (set || set') error := by
  cases set <;> cases set' <;> rfl

section Chains

variable {R A : Type} (tokenNext : R → Token × R) (tokens : A → List Token) (node : A → AstNode)
  (unclosed : A → Bool)

/-- With enough fuel `parser_readAtomInternal` takes the tokens of `a` and returns its
node. -/
def ReadsAs (hasPrefix : Bool) (a : A) : Prop :=
  ∀ (fuel : ℕ) (p : Parser R) (ts : List Token) (r' : R),
    2 * (tokens a).length ≤ fuel + 1 → Upcoming tokenNext p (tokens a ++ ts) r' →
    ∃ p', parserReadAtomInternal tokenNext fuel p hasPrefix = .ok (node a, p') ∧
      Upcoming tokenNext p' ts r' ∧ p'.error = errorAfter (unclosed a) p.error

/-- The tokens of operators with their operands. -/
def chainTokens (xs : List (Operator × A)) : List Token :=
  xs.flatMap fun x => x.1.1 :: tokens x.2

/-- One of the operands is missing. -/
def HasGap (xs : List (Operator × A)) : Prop := ∃ x ∈ xs, (node x.2).isNull = true

instance (xs : List (Operator × A)) : Decidable (HasGap node xs) :=
  inferInstanceAs (Decidable (∃ x ∈ xs, _))

/-- What `parser_parseBinary` makes of the tree `t` and what comes after it. -/
def chainNode (t : OpTree Operator A) (xs : List (Operator × A)) : AstNode :=
  if HasGap node xs then .null else (repair Operator.prec t xs).build binaryNode node

/-- A chain that is read to its end: only the last operand may be missing, and before a
single operator with its operand the first one is not. -/
structure ChainReturns (t : OpTree Operator A) (xs : List (Operator × A)) : Prop where
  earlier : ¬ HasGap node xs.dropLast
  first : (t.build binaryNode node).isNull = true → xs.length = 1 → HasGap node xs

variable {tokenNext tokens node unclosed}

@[simp] theorem chainTokens_cons (x : Operator × A) (xs : List (Operator × A)) :
    chainTokens tokens (x :: xs) = x.1.1 :: (tokens x.2 ++ chainTokens tokens xs) := rfl

theorem hasGap_cons {x : Operator × A} {xs : List (Operator × A)} :
    HasGap node (x :: xs) ↔ (node x.2).isNull = true ∨ HasGap node xs := by
  simp [HasGap]

theorem not_hasGap_nil : ¬ HasGap node ([] : List (Operator × A)) := by
  rintro ⟨x, hx, -⟩
  cases hx

theorem chainNode_of_gap {t : OpTree Operator A} {xs : List (Operator × A)}
    (h : HasGap node xs) : chainNode node t xs = .null := if_pos h

theorem chainNode_of_not_gap {t : OpTree Operator A} {xs : List (Operator × A)}
    (h : ¬ HasGap node xs) :
    chainNode node t xs = (repair Operator.prec t xs).build binaryNode node := if_neg h

/-- After an operand that is there, a chain goes on with an operator at the root. -/
theorem ChainReturns.tail {t : OpTree Operator A} {op : Operator} {a : A}
    {xs : List (Operator × A)} (h : ChainReturns node t ((op, a) :: xs)) :
    ChainReturns node (.node op t (.leaf a)) xs := by
  refine ⟨?_, fun hnull => absurd hnull Bool.false_ne_true⟩
  cases xs with
  | nil => exact not_hasGap_nil
  | cons y ys => exact fun hgap => h.earlier (hasGap_cons.mpr (.inr hgap))

theorem chainNode_isNull {op : Operator} {l r : OpTree Operator A} {xs : List (Operator × A)} :
    (chainNode node (.node op l r) xs).isNull = true ↔ HasGap node xs := by
  unfold chainNode
  split
  · rename_i hgap
    exact iff_of_true rfl hgap
  · rename_i hgap
    refine iff_of_false ?_ hgap
    cases xs with
    | nil => exact Bool.false_ne_true
    | cons x xs =>
        obtain ⟨o, l', r', heq⟩ := exists_repair_cons Operator.prec (.node op l r) x xs
        rw [heq]
        exact Bool.false_ne_true

theorem chainNode_leaf_isNull {a : A} {xs : List (Operator × A)} :
    (chainNode node (.leaf a) xs).isNull = true ↔
      HasGap node xs ∨ xs = [] ∧ (node a).isNull = true := by
  by_cases hgap : HasGap node xs
  · rw [chainNode_of_gap hgap]
    exact iff_of_true rfl (.inl hgap)
  · rw [chainNode_of_not_gap hgap]
    cases xs with
    | nil => exact ⟨fun h => .inr ⟨rfl, h⟩, fun h => (h.resolve_left hgap).2⟩
    | cons x xs =>
        obtain ⟨o, l, r, heq⟩ := exists_repair_cons Operator.prec (.leaf a) x xs
        rw [heq]
        exact iff_of_false Bool.false_ne_true (not_or.mpr ⟨hgap, fun h => by cases h.1⟩)

/-- The end of a call of `parser_parseBinary`, after the recursion. -/
theorem rotateResult_chainNode {op : Operator} {t : OpTree Operator A} {a : A}
    {xs : List (Operator × A)} (hgap : ¬ HasGap node xs)
    (hfirst : xs = [] → (t.build binaryNode node).isNull = false) :
    rotateResult op.prec (chainNode node (.node op t (.leaf a)) xs) =
      .ok ((repair Operator.prec t ((op, a) :: xs)).build binaryNode node) := by
  rw [chainNode_of_not_gap hgap, repair]
  cases xs with
  | nil => exact rotateResult_build op (.root _) (hfirst rfl)
  | cons x xs => exact rotateResult_build_next op t a x xs

/-- **Operators and operands after the tree `t`.** -/
theorem parserParseBinary_chain (xs : List (Operator × A))
    (hxs : ∀ x ∈ xs, ReadsAs tokenNext tokens node unclosed false x.2)
    (t : OpTree Operator A) (hreturns : ChainReturns node t xs) (fuel : ℕ) (p : Parser R)
    (stop : Token) (hstop : HasGap node xs ∨ getPresedence stop.type = -1) (ts : List Token)
    (r' : R) (hfuel : 2 * (chainTokens tokens xs).length + 1 ≤ fuel)
    (hp : Upcoming tokenNext p (chainTokens tokens xs ++ stop :: ts) r') :
    ∃ p', parserParseBinary tokenNext fuel p (t.build binaryNode node) =
        .ok (chainNode node t xs, p') ∧
      Upcoming tokenNext p' (stop :: ts) r' ∧
      p'.error = errorAfter (xs.any fun x => unclosed x.2) p.error := by
  induction xs generalizing t fuel p with
  | nil =>
      obtain ⟨fuel, rfl⟩ : ∃ n, fuel = n + 1 := ⟨fuel - 1, by omega⟩
      obtain ⟨p₁, hpeek, hp₁, herr⟩ := Upcoming.peekToken hp
      refine ⟨p₁, ?_, hp₁, herr⟩
      rw [parserParseBinary, hpeek, chainNode_of_not_gap not_hasGap_nil]
      exact if_pos (hstop.resolve_left not_hasGap_nil)
  | cons x xs ih =>
      obtain ⟨op, a⟩ := x
      obtain ⟨fuel, rfl⟩ : ∃ n, fuel = n + 1 := ⟨fuel - 1, by omega⟩
      simp only [chainTokens_cons, List.cons_append, List.append_assoc, List.length_cons,
        List.length_append] at hfuel hp
      obtain ⟨p₁, hpeek, hp₁, herr₁⟩ := Upcoming.peekToken hp
      obtain ⟨p₂, hnext, hp₂, herr₂⟩ := Upcoming.next hp₁
      obtain ⟨p₃, hread, hp₃, herr₃⟩ :=
        hxs (op, a) List.mem_cons_self fuel p₂ _ r' (by dsimp only; omega) hp₂
      dsimp only at hread herr₃
      have herr : p₃.error = errorAfter (unclosed a) p.error := by rw [herr₃, herr₂, herr₁]
      rw [parserParseBinary, hpeek]
      dsimp only
      rw [if_neg op.2, hnext]
      dsimp only
      rw [hread]
      show ∃ p', (if (node a).isNull then Except.ok (AstNode.null, p₃) else _) = _ ∧ _
      by_cases hnull : (node a).isNull = true
      -- the operand is missing, so it is the last one
      · obtain rfl : xs = [] := by
          cases xs with
          | nil => rfl
          | cons y ys => exact absurd ⟨_, List.mem_cons_self, hnull⟩ hreturns.earlier
        refine ⟨p₃, ?_, hp₃, ?_⟩
        · rw [if_pos hnull, chainNode_of_gap (hasGap_cons.mpr (.inl hnull))]
        · rw [herr, List.any_cons, List.any_nil, Bool.or_false]
      · have hgap : HasGap node ((op, a) :: xs) ↔ HasGap node xs :=
          hasGap_cons.trans (or_iff_right hnull)
        rw [if_neg hnull]
        obtain ⟨p₄, hrest, hp₄, herr₄⟩ := ih (fun x hx => hxs x (List.mem_cons_of_mem _ hx))
          (.node op t (.leaf a)) hreturns.tail fuel p₃ (hstop.imp_left hgap.mp) (by omega) hp₃
        refine ⟨p₄, ?_, hp₄, ?_⟩
        · show (parserParseBinary tokenNext fuel p₃
            (OpTree.build binaryNode node (.node op t (.leaf a))) >>= _) = _
          rw [hrest]
          show (if (chainNode node (.node op t (.leaf a)) xs).isNull then _ else _) = _
          by_cases hg : HasGap node xs
          · rw [if_pos (chainNode_isNull.mpr hg), chainNode_of_gap (hgap.mpr hg)]
          · rw [if_neg (mt chainNode_isNull.mp hg), chainNode_of_not_gap (mt hgap.mp hg)]
            show (rotateResult op.prec _ >>= _) = _
            rw [rotateResult_chainNode hg]
            · rfl
            · rintro rfl
              exact Bool.eq_false_iff.mpr fun h => mt hgap.mp hg (hreturns.first h rfl)
        · rw [herr₄, herr, errorAfter_errorAfter, List.any_cons]

/-- **An expression** is read if its operands are. -/
theorem parserParseExpression_chain (a : A) (xs : List (Operator × A))
    (ha : ReadsAs tokenNext tokens node unclosed false a)
    (hxs : ∀ x ∈ xs, ReadsAs tokenNext tokens node unclosed false x.2)
    (hpos : 0 < (tokens a).length) (hreturns : ChainReturns node (.leaf a) xs) (fuel : ℕ)
    (hfuel : 2 * (tokens a ++ chainTokens tokens xs).length + 1 ≤ fuel) (p : Parser R)
    (stop : Token) (hstop : HasGap node xs ∨ getPresedence stop.type = -1) (ts : List Token)
    (r' : R) (hp : Upcoming tokenNext p (tokens a ++ chainTokens tokens xs ++ stop :: ts) r') :
    ∃ p', parserParseExpression tokenNext fuel p = .ok (chainNode node (.leaf a) xs, p') ∧
      Upcoming tokenNext p' (stop :: ts) r' ∧
      p'.error = errorAfter (unclosed a || xs.any fun x => unclosed x.2) p.error := by
  obtain ⟨fuel, rfl⟩ : ∃ n, fuel = n + 1 := ⟨fuel - 1, by omega⟩
  rw [List.append_assoc] at hp
  rw [List.length_append] at hfuel
  obtain ⟨p₁, hread, hp₁, herr₁⟩ := ha fuel p _ r' (by omega) hp
  obtain ⟨p₂, hbin, hp₂, herr₂⟩ := parserParseBinary_chain xs hxs (.leaf a) hreturns fuel p₁ stop
    hstop ts r' (by omega) hp₁
  refine ⟨p₂, ?_, hp₂, by rw [herr₂, herr₁, errorAfter_errorAfter]⟩
  rw [parserParseExpression, hread]
  exact hbin

end Chains
