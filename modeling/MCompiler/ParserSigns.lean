/-
# Prefix signs

`parser_readAtomInternal` applies a `-` by multiplying the word behind the node's type by
`-1`.  For a number this is its value; for a variable it is the pointer to the name and for
a binary expression the pointer to the left child.

* `readAtom_negates_iff` : the tree for `- A` is intact and has the negated value exactly if
  `A` is a number, in parentheses and signs at most, or the pointer has been negated an odd
  number of times already, and nothing inside `A` is damaged.

The operators of a group are grouped as the parser groups them, and a literal has the value
that `range_parseInt` returns; both are the subject of other modules.
-/
import MCompiler.ParserErrors

open OpTree

/-! ## Trees and their values -/

/-- Variable names still point to the source, and child pointers to the nodes parsed. -/
def AstNode.Intact : AstNode → Prop
  | .number _ => True
  | .variable _ wild => wild = false
  | .binaryExp _ l r wild => wild = false ∧ l.Intact ∧ r.Intact
  | _ => False

/-- The value of an expression tree, from the values of the variables and the meaning of
the operators. -/
def AstNode.eval (env : Range → Int64) (sem : TokenType → Int64 → Int64 → Int64) :
    AstNode → Int64
  | .number num => num
  | .variable varName _ => env varName
  | .binaryExp op l r _ => sem op (l.eval env sem) (r.eval env sem)
  | _ => 0

/-- The node after a `-` has been written to it. -/
def AstNode.negated : AstNode → AstNode
  | .number num => .number (num * -1)
  | .variable varName wild => .variable varName !wild
  | .binaryExp op l r wild => .binaryExp op l r !wild
  | other => other

/-- A node whose word is a pointer that has not been negated. -/
def AstNode.HasPointer : AstNode → Prop
  | .variable _ wild => wild = false
  | .binaryExp _ _ _ wild => wild = false
  | _ => False

namespace Phrase

section Values

variable (env : Range → Int64) (sem : TokenType → Int64 → Int64 → Int64)

/-- The values of the operands as they are written, where a `-` negates. -/
def values : Phrase → Int64 × List (Operator × Int64)
  | number digit digits => (Int64.ofInt ((rangeParseInt (digit :: digits)).getD 0), [])
  | ident name => (env name, [])
  | missing _ => (0, [])
  | signed sign a => (if sign.type = .PLUS then a.values.1 else -a.values.1, [])
  | group _ e _ =>
      ((repair Operator.prec (.leaf e.values.1) e.values.2).build (fun op => sem op.1.type) id, [])
  | next e op a => (e.values.1, e.values.2 ++ [(op, a.values.1)])

/-- The value of an operand. -/
def operandValue (a : Phrase) : Int64 := (a.values env sem).1

/-- The value of a phrase. -/
def value (e : Phrase) : Int64 :=
  (repair Operator.prec (.leaf (e.values env sem).1) (e.values env sem).2).build
    (fun op => sem op.1.type) id

end Values

/-- A number, in parentheses and signs at most. -/
def IsLiteral : Phrase → Prop
  | number _ _ => True
  | signed _ a => a.IsLiteral
  | group _ e _ => e.IsLiteral
  | _ => False

/-- The number of minus signs around an operand, within parentheses or not, is odd. -/
def negative : Phrase → Bool
  | signed sign a => (sign.type ≠ .PLUS) ^^ a.negative
  | group _ e _ => e.negative
  | _ => false

/-- No operand inside is damaged: each is a literal or has an even number of minus signs
around it. -/
def InnerIntact : Phrase → Prop
  | signed _ a => a.InnerIntact
  | group _ e _ => e.InnerIntact
  | next e _ a =>
      ((e.IsLiteral ∨ e.negative = false) ∧ e.InnerIntact) ∧
        (a.IsLiteral ∨ a.negative = false) ∧ a.InnerIntact
  | _ => True

/-- An operand that is not damaged, inside or by its own signs. -/
def Undamaged (a : Phrase) : Prop := (a.IsLiteral ∨ a.negative = false) ∧ a.InnerIntact

/-- The first operand and those after the operators. -/
def allOperands (e : Phrase) : List Phrase := e.first :: e.rest.map Prod.snd

/-! ## What a sign does to a tree -/

theorem negated_negated {base : AstNode} (h : base.HasPointer) : base.negated.negated = base := by
  cases base with
  | «variable» varName wild => simp [AstNode.negated]
  | binaryExp op l r wild => simp [AstNode.negated]
  | _ => exact h.elim

theorem negated_not_intact {base : AstNode} (h : base.HasPointer) : ¬ base.negated.Intact := by
  cases base with
  | «variable» varName wild =>
      obtain rfl : wild = false := h
      exact Bool.noConfusion
  | binaryExp op l r wild =>
      obtain rfl : wild = false := h
      exact fun hintact => Bool.noConfusion hintact.1
  | _ => exact h.elim

theorem signedNode_eq {node : AstNode} (h : Negatable node) (sign : Token) :
    signedNode sign node = if sign.type = .PLUS then node else node.negated := by
  unfold signedNode
  split
  · rfl
  · cases node with
    | null => rfl
    | number num => rfl
    | «variable» varName wild => rfl
    | binaryExp op l r wild => rfl
    | _ => exact h.elim

/-- The tree of a phrase by its signs: a number, or a node `base` whose pointer has been
negated as often as there are minus signs around the phrase. -/
structure Shape (e : Phrase) : Prop where
  literal : e.IsLiteral → ∃ n, e.parsed = .number n ∧ ∀ env sem, e.value env sem = n
  other : ¬ e.IsLiteral → ∃ base : AstNode, base.HasPointer ∧
    e.parsed = (if e.negative then base.negated else base) ∧ (base.Intact ↔ e.InnerIntact) ∧
    (e.InnerIntact → ∀ env sem, base.eval env sem =
      if e.negative then -e.value env sem else e.value env sem)

theorem IsLiteral.innerIntact {e : Phrase} (h : e.IsLiteral) : e.InnerIntact := by
  induction e with
  | number digit digits => trivial
  | signed sign a ih => exact ih h
  | group opening e closing ih => exact ih h
  | _ => exact h.elim

theorem Shape.intact_iff {e : Phrase} (h : e.Shape) : e.parsed.Intact ↔ e.Undamaged := by
  by_cases hliteral : e.IsLiteral
  · obtain ⟨n, heq, -⟩ := h.literal hliteral
    rw [heq]
    exact iff_of_true trivial ⟨.inl hliteral, hliteral.innerIntact⟩
  · obtain ⟨base, hbase, heq, hintact, -⟩ := h.other hliteral
    rw [heq, Undamaged, or_iff_right hliteral, ← hintact]
    cases e.negative with
    | true => exact iff_of_false (negated_not_intact hbase) fun hfalse => Bool.noConfusion hfalse.1
    | false => exact (and_iff_right rfl).symm

theorem Shape.eval_eq {e : Phrase} (h : e.Shape) (hundamaged : e.Undamaged)
    (env : Range → Int64) (sem : TokenType → Int64 → Int64 → Int64) :
    e.parsed.eval env sem = e.value env sem := by
  by_cases hliteral : e.IsLiteral
  · obtain ⟨n, heq, hvalue⟩ := h.literal hliteral
    rw [heq, hvalue env sem, AstNode.eval]
  · obtain ⟨base, -, heq, -, hvalue⟩ := h.other hliteral
    have hnegative := hundamaged.1.resolve_left hliteral
    have heval := hvalue hundamaged.2 env sem
    rw [hnegative] at heq heval
    rw [heq]
    exact heval

/-! ## The shape of every phrase -/

theorem values_eq (e : Phrase) (env : Range → Int64)
    (sem : TokenType → Int64 → Int64 → Int64) : e.values env sem =
      (e.first.operandValue env sem, e.rest.map fun x => (x.1, x.2.operandValue env sem)) := by
  induction e with
  | next e op a ih _ =>
      rw [values, ih, first, rest, List.map_append]
      rfl
  | _ => rfl

theorem value_eq (e : Phrase) (env : Range → Int64) (sem : TokenType → Int64 → Int64 → Int64) :
    e.value env sem = (repair Operator.prec (.leaf e.first) e.rest).build
      (fun op => sem op.1.type) (operandValue env sem) := by
  have hmap := map_repair Operator.prec (operandValue env sem) (.leaf e.first) e.rest
  rw [value, values_eq]
  exact (congrArg (build (fun op => sem op.1.type) id) hmap.symm).trans (build_map id _ _)

theorem value_of_isOperand {a : Phrase} (ha : a.IsOperand) (env : Range → Int64)
    (sem : TokenType → Int64 → Int64 → Int64) : a.value env sem = a.operandValue env sem := by
  rw [value_eq, rest_eq_nil.mpr ha, first_of_isOperand ha]
  rfl

theorem eval_build {A : Type} {node : A → AstNode} {v : A → Int64} {env : Range → Int64}
    {sem : TokenType → Int64 → Int64 → Int64} {t : OpTree Operator A}
    (h : ∀ a ∈ t.leaves, (node a).eval env sem = v a) :
    (t.build binaryNode node).eval env sem = t.build (fun op => sem op.1.type) v := by
  induction t with
  | leaf a => exact h a (List.mem_singleton.mpr rfl)
  | node op l r ihl ihr =>
      rw [build, build, ← ihl fun a ha => h a (List.mem_append_left _ ha),
        ← ihr fun a ha => h a (List.mem_append_right _ ha)]
      rfl

theorem allOperands_next (e : Phrase) (op : Operator) (a : Phrase) :
    (next e op a).allOperands = e.allOperands ++ [a] := by
  simp [allOperands, first, rest]

theorem allOperands_of_isOperand {a : Phrase} (ha : a.IsOperand) : a.allOperands = [a] := by
  rw [allOperands, first_of_isOperand ha, rest_eq_nil.mpr ha]
  rfl

theorem allOperands_undamaged_iff (e : Phrase) :
    (∀ a ∈ e.allOperands, a.Undamaged) ↔ e.Undamaged := by
  induction e with
  | next e op a ihe _ =>
      rw [allOperands_next, List.forall_mem_append, ihe, List.forall_mem_singleton]
      exact (and_iff_right (.inr rfl)).symm
  | _ => exact List.forall_mem_singleton

/-- The shape of a chain, from those of its operands. -/
theorem shape_next {e : Phrase} {op : Operator} {a : Phrase} (h : (next e op a).Valid false)
    (hcomplete : (next e op a).Complete)
    (hall : ∀ b ∈ (next e op a).allOperands, b.IsOperand ∧ b.Valid false ∧ b.Shape) :
    (next e op a).Shape := by
  refine ⟨False.elim, fun _ => ⟨(next e op a).parsed, ?_⟩⟩
  have hthere : ¬ (next e op a).IsMissing := by
    rw [← h.parsed_isNull, withoutNull_isNull (h.parsed_withoutNull.mpr hcomplete)]
    exact Bool.false_ne_true
  have hgap : ¬ HasGap operand (next e op a).rest := fun hgap => hthere (h.hasGap.mp hgap).2
  have hparsed := (next e op a).parsed_eq
  rw [chainNode_of_not_gap hgap] at hparsed
  have hleaves : (repair Operator.prec (.leaf (next e op a).first) (next e op a).rest).leaves =
      (next e op a).allOperands := by
    obtain ⟨hfirst, hrest⟩ :=
      repair_sequence Operator.prec (.leaf (next e op a).first) (next e op a).rest
    rw [leaves_eq, hfirst, hrest]
    rfl
  refine ⟨?_, rfl, ?_, fun hintact env sem => ?_⟩
  · obtain ⟨x, xs, hxs⟩ := List.exists_cons_of_ne_nil
      (mt rest_eq_nil.mp (show ¬ (next e op a).IsOperand from id))
    obtain ⟨o, l, r, heq⟩ := exists_repair_cons Operator.prec (.leaf (next e op a).first) x xs
    rw [hparsed, hxs, heq]
    rfl
  · have hiff : (next e op a).Undamaged ↔ (next e op a).InnerIntact := and_iff_right (.inr rfl)
    rw [hparsed, build_iff (P := AstNode.Intact) fun _ _ _ => and_iff_right rfl, hleaves, ← hiff,
      ← allOperands_undamaged_iff]
    refine forall₂_congr fun b hb => ?_
    obtain ⟨hop, hvalid, hshape⟩ := hall b hb
    rw [← hvalid.parsed_operand hop, hshape.intact_iff]
  · rw [hparsed]
    show _ = (next e op a).value env sem
    rw [value_eq]
    refine eval_build fun b hb => ?_
    rw [hleaves] at hb
    obtain ⟨hop, hvalid, hshape⟩ := hall b hb
    have hundamaged := (next e op a).allOperands_undamaged_iff.mpr ⟨.inr rfl, hintact⟩ b hb
    rw [← hvalid.parsed_operand hop, hshape.eval_eq hundamaged, value_of_isOperand hop]

theorem shape_signed {sign : Token} {a : Phrase} {hasPrefix : Bool}
    (h : (signed sign a).Valid hasPrefix) (ha : a.Shape) : (signed sign a).Shape := by
  have hparsed : (signed sign a).parsed =
      if sign.type = .PLUS then a.parsed else a.parsed.negated := by
    rw [h.parsed_operand trivial, operand_signed, signedNode_eq (operand_negatable a),
      h.2.2.1.parsed_operand h.2.1]
  have hvalue : ∀ env sem, (signed sign a).value env sem =
      if sign.type = .PLUS then a.value env sem else -a.value env sem := by
    intro env sem
    rw [value_of_isOperand (a := signed sign a) trivial, value_of_isOperand h.2.1]
    rfl
  by_cases hplus : sign.type = .PLUS
  · simp only [hplus, if_true] at hparsed hvalue
    have hnegative : (signed sign a).negative = a.negative := by simp [negative, hplus]
    refine ⟨fun hliteral => ?_, fun hother => ?_⟩
    · simp only [hparsed, hvalue]
      exact ha.literal hliteral
    · simp only [hparsed, hvalue, hnegative]
      exact ha.other hother
  · simp only [hplus, if_false] at hparsed hvalue
    have hnegative : (signed sign a).negative = !a.negative := by simp [negative, hplus]
    refine ⟨fun hliteral => ?_, fun hother => ?_⟩
    · obtain ⟨n, heq, hn⟩ := ha.literal hliteral
      refine ⟨n * -1, by rw [hparsed, heq]; rfl, fun env sem => ?_⟩
      rw [hvalue, hn env sem, Int64.neg_eq_neg_one_mul, Int64.mul_comm]
    · obtain ⟨base, hbase, heq, hintact, hbval⟩ := ha.other hother
      refine ⟨base, hbase, ?_, hintact, fun hinner env sem => ?_⟩
      · rw [hparsed, heq, hnegative]
        cases a.negative with
        | true => exact negated_negated hbase
        | false => rfl
      · rw [hbval hinner env sem, hvalue, hnegative]
        cases a.negative with
        | true => rfl
        | false => simp

theorem shape_group {opening : Range} {e : Phrase} {closing : Token} {hasPrefix : Bool}
    (h : (group opening e closing).Valid hasPrefix) (hclosing : closing.type = .PARAN_CLOSE)
    (he : e.Shape) : (group opening e closing).Shape := by
  have hparsed : (group opening e closing).parsed = e.parsed := by
    rw [h.parsed_operand trivial, operand_group, if_pos hclosing]
  have hvalue : ∀ env sem, (group opening e closing).value env sem = e.value env sem :=
    fun env sem => rfl
  refine ⟨fun hliteral => ?_, fun hother => ?_⟩
  · rw [hparsed]
    exact he.literal hliteral
  · rw [hparsed]
    exact he.other hother

/-- **Every complete phrase has a shape.** -/
theorem shape (e : Phrase) : ∀ hasPrefix, e.Valid hasPrefix → e.Complete → e.Shape ∧
    (hasPrefix = false → ∀ b ∈ e.allOperands, b.IsOperand ∧ b.Valid false ∧ b.Shape) := by
  have hop : ∀ (a : Phrase) (hasPrefix : Bool), a.IsOperand → a.Valid hasPrefix → a.Shape →
      a.Shape ∧
        (hasPrefix = false → ∀ b ∈ a.allOperands, b.IsOperand ∧ b.Valid false ∧ b.Shape) := by
    rintro a hasPrefix ha hvalid hshape
    refine ⟨hshape, ?_⟩
    rintro rfl b hb
    rw [allOperands_of_isOperand ha, List.mem_singleton] at hb
    rw [hb]
    exact ⟨ha, hvalid, hshape⟩
  induction e with
  | number digit digits =>
      intro hasPrefix h _
      exact hop _ _ trivial h ⟨fun _ => ⟨_, rfl, fun _ _ => rfl⟩, fun hother => absurd trivial hother⟩
  | ident name =>
      intro hasPrefix h _
      exact hop _ _ trivial h ⟨False.elim, fun _ => ⟨.variable name false, rfl, rfl,
        iff_of_true rfl trivial, fun _ _ _ => rfl⟩⟩
  | missing tok => exact fun _ _ hcomplete => hcomplete.elim
  | signed sign a ih =>
      intro hasPrefix h hcomplete
      exact hop _ _ trivial h (shape_signed h (ih true h.2.2.1 hcomplete).1)
  | group opening e closing ih =>
      intro hasPrefix h hcomplete
      exact hop _ _ trivial h (shape_group h hcomplete.1 (ih false h.1 hcomplete.2).1)
  | next e op a ihe iha =>
      intro hasPrefix h hcomplete
      have hall : ∀ b ∈ (next e op a).allOperands, b.IsOperand ∧ b.Valid false ∧ b.Shape := by
        rw [allOperands_next, List.forall_mem_append, List.forall_mem_singleton]
        exact ⟨(ihe false h.1 hcomplete.1).2 rfl, h.2.2.1, h.2.1, (iha false h.2.1 hcomplete.2).1⟩
      exact ⟨shape_next h hcomplete hall, fun _ => hall⟩

/-- What may stand after a sign: a number, an identifier or an expression in parentheses. -/
def Unsigned (a : Phrase) : Prop := a.IsOperand ∧ a.Valid true ∧ a.Complete

theorem Unsigned.valid {a : Phrase} (h : a.Unsigned) : a.Valid false := by
  obtain ⟨ha, hvalid, hcomplete⟩ := h
  cases a with
  | missing tok => exact hcomplete.elim
  | signed sign a => exact Bool.noConfusion hvalid.1
  | next e op a => exact ha.elim
  | _ => exact hvalid

theorem Unsigned.signed {a : Phrase} (h : a.Unsigned) (sign : Token)
    (hsign : sign.type = .PLUS ∨ sign.type = .MINUS) :
    (signed sign a).Valid false ∧ (signed sign a).Complete := by
  obtain ⟨ha, hvalid, hcomplete⟩ := h
  refine ⟨⟨rfl, ha, hvalid, hsign.imp_right fun hminus => ⟨hminus, ?_⟩⟩, hcomplete⟩
  rw [← hvalid.parsed_isNull, withoutNull_isNull (hvalid.parsed_withoutNull.mpr hcomplete)]
  exact Bool.false_ne_true

end Phrase

/-! ## Reading a sign and its operand -/

section Reading

variable {R : Type} (tokenNext : R → Token × R)

/-- **The signs of `A` are right**: from `minus`, where `- A` comes next, the parser returns
an intact tree with the negated value of `A`, and from `plus`, where `+ A` comes next, the
tree that it returns from `bare`, where `A` does. -/
def SignsApply (fuel : ℕ) (A : Phrase) (minus plus bare : Parser R) : Prop :=
  (∃ node p', parserReadAtomInternal tokenNext fuel minus false = .ok (node, p') ∧
    node.Intact ∧ ∀ env sem, node.eval env sem = -A.value env sem) ∧
  ∃ node p' p'', parserReadAtomInternal tokenNext fuel plus false = .ok (node, p') ∧
    parserReadAtomInternal tokenNext fuel bare false = .ok (node, p'')

/-- **A prefix sign negates its operand exactly if** this is a number, in parentheses and
signs at most, or has an odd number of minus signs around it already and none of the
operands inside is damaged. -/
theorem readAtom_negates_iff {A : Phrase} (hA : A.Unsigned) (fuel : ℕ)
    (hfuel : 2 * A.tokens.length + 1 ≤ fuel) {minus plus bare : Parser R} {text text' : Range}
    {ts ts' ts'' : List Token} {r r' r'' : R}
    (hminus : Upcoming tokenNext minus (⟨.MINUS, text⟩ :: (A.tokens ++ ts)) r)
    (hplus : Upcoming tokenNext plus (⟨.PLUS, text'⟩ :: (A.tokens ++ ts')) r')
    (hbare : Upcoming tokenNext bare (A.tokens ++ ts'') r'') :
    SignsApply tokenNext fuel A minus plus bare ↔
      A.IsLiteral ∨ A.negative = true ∧ A.InnerIntact := by
  obtain ⟨hvalidM, hcompleteM⟩ := hA.signed ⟨.MINUS, text⟩ (.inr rfl)
  obtain ⟨hvalidP, -⟩ := hA.signed ⟨.PLUS, text'⟩ (.inl rfl)
  obtain ⟨p₁, hread₁, -⟩ := (Phrase.reads _ false hvalidM).1 trivial fuel minus ts r
    (by rw [Phrase.tokens, List.length_cons]; omega) hminus
  obtain ⟨p₂, hread₂, -⟩ := (Phrase.reads _ false hvalidP).1 trivial fuel plus ts' r'
    (by rw [Phrase.tokens, List.length_cons]; omega) hplus
  obtain ⟨p₃, hread₃, -⟩ := (A.reads false hA.valid).1 hA.1 fuel bare ts'' r'' (by omega) hbare
  have hshape := (Phrase.shape _ false hvalidM hcompleteM).1
  have hparsed := hvalidM.parsed_operand trivial
  have hundamaged : (Phrase.signed ⟨.MINUS, text⟩ A).Undamaged ↔
      A.IsLiteral ∨ A.negative = true ∧ A.InnerIntact := by
    have hnegative : (Phrase.signed ⟨.MINUS, text⟩ A).negative = !A.negative := by
      simp [Phrase.negative]
    rw [Phrase.Undamaged, hnegative, Bool.not_eq_false']
    constructor
    · rintro ⟨hliteral | hnegative, hinner⟩
      · exact .inl hliteral
      · exact .inr ⟨hnegative, hinner⟩
    · rintro (hliteral | ⟨hnegative, hinner⟩)
      · exact ⟨.inl hliteral, hliteral.innerIntact⟩
      · exact ⟨.inr hnegative, hinner⟩
  rw [← hundamaged]
  constructor
  · rintro ⟨⟨node, p', hread, hintact, -⟩, -⟩
    cases hread₁.symm.trans hread
    rw [← hshape.intact_iff, hparsed]
    exact hintact
  · intro hgood
    refine ⟨⟨_, p₁, hread₁, ?_, fun env sem => ?_⟩, A.operand, p₂, p₃, ?_, hread₃⟩
    · rw [← hparsed, hshape.intact_iff]
      exact hgood
    · rw [← hparsed, hshape.eval_eq hgood, Phrase.value_of_isOperand (by exact trivial),
        Phrase.value_of_isOperand hA.1]
      rfl
    · rw [hread₂, Phrase.operand_signed, Phrase.signedNode, if_pos rfl]

end Reading

/-- `- (-a)`. -/
theorem readAtom_negates_twice :
    let A : Phrase := .group [40] (.signed ⟨.MINUS, [45]⟩ (.ident [97])) ⟨.PARAN_CLOSE, [41]⟩
    SignsApply streamNext 9 A { reader := ⟨.MINUS, [45]⟩ :: A.tokens }
      { reader := ⟨.PLUS, [43]⟩ :: A.tokens } { reader := A.tokens } := by
  intro A
  have hA : A.Unsigned :=
    ⟨trivial, ⟨⟨rfl, trivial, trivial, .inr ⟨rfl, id⟩⟩, trivial, .inr rfl⟩, rfl, trivial⟩
  have hup : ∀ t : Token,
      Upcoming streamNext { reader := t :: A.tokens } (t :: (A.tokens ++ [])) [] :=
    fun t => upcoming_stream (t :: A.tokens)
  have hbare : Upcoming streamNext { reader := A.tokens } (A.tokens ++ []) [] :=
    upcoming_stream A.tokens
  exact (readAtom_negates_iff streamNext hA 9 (by decide) (hup _) (hup _) hbare).mpr
    (.inr ⟨rfl, trivial⟩)

/-- `- a` negates the pointer to the name of the variable. -/
theorem readAtom_not_negates :
    ¬ ∀ (A : Phrase), A.Unsigned → SignsApply streamNext (2 * A.tokens.length + 1) A
      { reader := ⟨.MINUS, [45]⟩ :: A.tokens } { reader := ⟨.PLUS, [43]⟩ :: A.tokens }
      { reader := A.tokens } := by
  intro hclaim
  obtain ⟨⟨node, p', hread, hintact, -⟩, -⟩ := hclaim (.ident [97]) ⟨trivial, trivial, trivial⟩
  cases hread
  exact Bool.noConfusion hintact
