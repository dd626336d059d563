/-
# Malformed expressions

`parser_readAtomInternal` returns the null pointer for a token that does not begin an
operand, without setting the error, and `parser_parseExpression` passes the null pointer
on to `parser_parseBinary` as a left operand.

* `parserParseExpression_clean_iff` : the parser returns a tree without null pointers, or
  the null pointer with the error set, exactly if the phrase that the tokens begin with is
  complete, or has no last operand and the error is set by a group in it.
-/
import MCompiler.ParserPhrases

open OpTree

/-- An expression tree in which no node is null. -/
def AstNode.WithoutNull : AstNode → Prop
  | .null => False
  | .binaryExp _ l r _ => l.WithoutNull ∧ r.WithoutNull
  -- no other node of an expression has children
  | _ => True

namespace Phrase

/-- All operands are there and all groups are closed. -/
def Complete : Phrase → Prop
  | number _ _ => True
  | ident _ => True
  | missing _ => False
  | signed _ a => a.Complete
  | group _ e closing => closing.type = .PARAN_CLOSE ∧ e.Complete
  | next e _ a => e.Complete ∧ a.Complete

/-- A token has been taken where an operand is missing. -/
def LacksOperand : Phrase → Prop
  | number _ _ => False
  | ident _ => False
  | missing _ => True
  | signed _ a => a.LacksOperand
  | group _ e _ => e.LacksOperand
  | next e _ a => e.LacksOperand ∨ a.LacksOperand

theorem LacksOperand.not_complete {e : Phrase} (h : e.LacksOperand) : ¬ e.Complete := by
  induction e with
  | number digit digits => exact h.elim
  | ident name => exact h.elim
  | missing tok => exact id
  | signed sign a ih => exact ih h
  | group opening e closing ih => exact fun hcomplete => ih h hcomplete.2
  | next e op a ihe iha =>
      rintro ⟨he, ha⟩
      exact h.elim (fun h => ihe h he) fun h => iha h ha

/-! ## Trees of complete phrases -/

theorem withoutNull_isNull {node : AstNode} (h : node.WithoutNull) : node.isNull = false := by
  cases node with
  | null => exact h.elim
  | _ => rfl

theorem signedNode_withoutNull {node : AstNode} (h : Negatable node) (sign : Token) :
    (signedNode sign node).WithoutNull ↔ node.WithoutNull := by
  unfold signedNode
  split
  · exact Iff.rfl
  · cases node with
    | null => exact Iff.rfl
    | number num => exact iff_of_true trivial trivial
    | «variable» varName wild => exact iff_of_true trivial trivial
    | binaryExp op l r wild => exact Iff.rfl
    | _ => exact h.elim

theorem chainNode_withoutNull {A : Type} {node : A → AstNode} (a : A)
    (xs : List (Operator × A)) : (chainNode node (.leaf a) xs).WithoutNull ↔
      (node a).WithoutNull ∧ ∀ x ∈ xs, (node x.2).WithoutNull := by
  by_cases hgap : HasGap node xs
  · rw [chainNode_of_gap hgap]
    obtain ⟨x, hx, hnull⟩ := hgap
    refine iff_of_false id fun h => ?_
    rw [withoutNull_isNull (h.2 x hx)] at hnull
    cases hnull
  · obtain ⟨hfirst, hrest⟩ := repair_sequence Operator.prec (.leaf a) xs
    rw [chainNode_of_not_gap hgap, build_iff (P := AstNode.WithoutNull) fun _ _ _ => Iff.rfl,
      leaves_eq, hfirst, hrest, List.forall_mem_cons, List.forall_mem_map]
    exact Iff.rfl

/-- The operands of a valid phrase give trees without null pointers exactly if it is
complete. -/
theorem operands_withoutNull (e : Phrase) : ∀ hasPrefix, e.Valid hasPrefix →
    ((e.operands.1.WithoutNull ∧ ∀ x ∈ e.operands.2, x.2.WithoutNull) ↔ e.Complete) := by
  have hop : ∀ a : Phrase, a.IsOperand →
      ((a.operands.1.WithoutNull ∧ ∀ x ∈ a.operands.2, x.2.WithoutNull) ↔
        a.operand.WithoutNull) := by
    intro a ha
    rw [operands_eq, rest_eq_nil.mpr ha, first_of_isOperand ha]
    exact and_iff_left fun x hx => absurd hx List.not_mem_nil
  induction e with
  | number digit digits => exact fun _ _ => hop _ trivial
  | ident name => exact fun _ _ => hop _ trivial
  | missing tok => exact fun _ _ => hop _ trivial
  | signed sign a ih =>
      rintro hasPrefix ⟨-, ha, hvalid, -⟩
      rw [hop (signed sign a) trivial, operand_signed,
        signedNode_withoutNull (operand_negatable a), ← hop _ ha]
      exact ih true hvalid
  | group opening e closing ih =>
      rintro hasPrefix ⟨hvalid, -⟩
      rw [hop (group opening e closing) trivial, operand_group, Complete]
      by_cases hclosing : closing.type = .PARAN_CLOSE
      · rw [if_pos hclosing, parsed, chainNode_withoutNull]
        exact (ih false hvalid).trans (and_iff_right hclosing).symm
      · rw [if_neg hclosing]
        exact iff_of_false id fun h => hclosing h.1
  | next e op a ihe iha =>
      rintro hasPrefix ⟨hvalid, hvalid', ha, -⟩
      have hlast := (hop a ha).symm.trans (iha false hvalid')
      rw [operands, Complete, ← ihe false hvalid, ← hlast, List.forall_mem_append,
        List.forall_mem_singleton, and_assoc]
      exact Iff.rfl

/-- **The tree of a phrase is without null pointers exactly if the phrase is complete.** -/
theorem Valid.parsed_withoutNull {e : Phrase} {hasPrefix : Bool} (h : e.Valid hasPrefix) :
    e.parsed.WithoutNull ↔ e.Complete := by
  rw [parsed, chainNode_withoutNull]
  exact operands_withoutNull e hasPrefix h

end Phrase

/-! ## Malformed expressions -/

section Parsing

variable {R : Type} (tokenNext : R → Token × R)

/-- The tokens of the phrase `e`, and the token before which the parser stops after it, are
the next ones. -/
def BeginsWith (p : Parser R) (e : Phrase) : Prop :=
  e.Valid false ∧ e.Returns ∧
    ∃ stop r', e.StopsBefore stop ∧ Upcoming tokenNext p (e.tokens ++ [stop]) r'

/-- The null pointer with the error set. -/
def Reports (node : AstNode) (p : Parser R) : Prop := node.isNull = true ∧ p.error ≠ none

/-- **The outcome of a parse is clean**: no null pointer is followed, it is a tree in which
no node is null, or the null pointer with the error set, and it is this if an operand is
missing anywhere. -/
def ParsesCleanly (p : Parser R) : Prop :=
  (∃ n, ∀ fuel, n ≤ fuel → ∃ node p',
    parserParseExpression tokenNext fuel p = .ok (node, p') ∧
      (node.WithoutNull ∨ Reports node p')) ∧
  ∀ e, BeginsWith tokenNext p e → e.LacksOperand → ∃ n, ∀ fuel, n ≤ fuel → ∃ node p',
    parserParseExpression tokenNext fuel p = .ok (node, p') ∧ Reports node p'

variable {tokenNext}

theorem upcoming_next (tokenNext : R → Token × R) (p : Parser R) :
    ∃ r', Upcoming tokenNext p [(parserNext tokenNext p).1] r' := by
  by_cases hpeek : p.hasPeek
  · simp [Upcoming, parserNext, hpeek, Reads]
  · simp [Upcoming, parserNext, hpeek, Reads, Prod.ext_iff]

theorem Phrase.TakesPhrase.beginsWith {p p' : Parser R} {e : Phrase} {node : AstNode}
    (h : TakesPhrase tokenNext p e node p') : BeginsWith tokenNext p e := by
  obtain ⟨r', hr'⟩ := upcoming_next tokenNext p'
  exact ⟨h.valid, h.returns, _, r', h.stops, h.takes _ r' hr'⟩

/-- A phrase is parsed with every fuel from some value on. -/
theorem BeginsWith.parses {p : Parser R} {e : Phrase} (h : BeginsWith tokenNext p e) :
    ∃ n, ∀ fuel, n ≤ fuel → ∃ p', parserParseExpression tokenNext fuel p = .ok (e.parsed, p') ∧
      p'.error = errorAfter e.unclosed p.error := by
  obtain ⟨hvalid, hreturns, stop, r', hstop, hup⟩ := h
  refine ⟨2 * e.tokens.length + 1, fun fuel hfuel => ?_⟩
  obtain ⟨p', hparse, -, herr⟩ :=
    Phrase.parserParseExpression_phrase hvalid hreturns fuel hfuel p stop hstop [] r' hup
  exact ⟨p', hparse, herr⟩

theorem errorAfter_ne_none {set : Bool} {error : Option String} :
    errorAfter set error ≠ none ↔ set = true ∨ error ≠ none := by
  cases set with
  | true => exact iff_of_true (Option.some_ne_none _) (.inl rfl)
  | false => exact (or_iff_right Bool.false_ne_true).symm

/-- **Malformed expressions fail cleanly exactly if** the tokens begin with a complete
phrase, or with one whose last operand is missing and that sets the error because of a
group that is not closed, where it is not set already. -/
theorem parserParseExpression_clean_iff (tokenNext : R → Token × R) (p : Parser R) :
    ParsesCleanly tokenNext p ↔ ∃ e, BeginsWith tokenNext p e ∧
      (e.Complete ∨ e.IsMissing ∧ (e.unclosed = true ∨ p.error ≠ none)) := by
  constructor
  · rintro ⟨⟨n, hn⟩, -⟩
    obtain ⟨node, p', hparse, hclean⟩ := hn n (Nat.le_refl n)
    obtain ⟨e, he⟩ := Phrase.exists_phrase hparse
    refine ⟨e, he.beginsWith, hclean.imp ?_ ?_⟩
    · rw [← he.node, he.valid.parsed_withoutNull]
      exact id
    · rw [Reports, ← he.node, he.valid.parsed_isNull, he.error, errorAfter_ne_none]
      exact id
  · rintro ⟨e, hbegins, hclean⟩
    obtain ⟨n, hn⟩ := hbegins.parses
    have houtcome : ∀ fuel, n ≤ fuel → ∃ p',
        parserParseExpression tokenNext fuel p = .ok (e.parsed, p') ∧
          (e.Complete ∨ Reports e.parsed p') := by
      intro fuel hfuel
      obtain ⟨p', hparse, herr⟩ := hn fuel hfuel
      refine ⟨p', hparse, hclean.imp_right ?_⟩
      rw [Reports, hbegins.1.parsed_isNull, herr, errorAfter_ne_none]
      exact id
    refine ⟨⟨n, fun fuel hfuel => ?_⟩, fun e' hbegins' hlacks => ?_⟩
    · obtain ⟨p', hparse, hcomplete⟩ := houtcome fuel hfuel
      exact ⟨e.parsed, p', hparse, hcomplete.imp_left hbegins.1.parsed_withoutNull.mpr⟩
    · -- both phrases describe the same outcome
      obtain ⟨n', hn'⟩ := hbegins'.parses
      refine ⟨max n n', fun fuel hfuel => ?_⟩
      obtain ⟨p', hparse, hcomplete⟩ := houtcome fuel (le_trans (le_max_left n n') hfuel)
      obtain ⟨p'', hparse', -⟩ := hn' fuel (le_trans (le_max_right n n') hfuel)
      have hsame : e.parsed = e'.parsed :=
        congrArg Prod.fst (Except.ok.inj (hparse.symm.trans hparse'))
      refine ⟨e.parsed, p', hparse, hcomplete.resolve_left fun h => ?_⟩
      rw [← hbegins.1.parsed_withoutNull, hsame, hbegins'.1.parsed_withoutNull] at h
      exact hlacks.not_complete h

end Parsing

/-- `* + 3;`: the parser follows the null pointer that stands for the first operand. -/
theorem parserParseExpression_not_clean :
    ¬ ∀ p : Parser (List Token), ParsesCleanly streamNext p := by
  intro hclaim
  obtain ⟨⟨n, hn⟩, -⟩ := hclaim { reader :=
    [⟨.MUL, [42]⟩, ⟨.PLUS, [43]⟩, ⟨.NUMBER, [51]⟩, ⟨.SEMI_COLON, [59]⟩] }
  obtain ⟨node, p', hparse, -⟩ := hn (n + 10) (Nat.le_add_right n 10)
  have hstop : parserParseExpression streamNext (n + 10) { reader :=
      [⟨.MUL, [42]⟩, ⟨.PLUS, [43]⟩, ⟨.NUMBER, [51]⟩, ⟨.SEMI_COLON, [59]⟩] } =
      .error .nullDeref := rfl
  rw [hstop] at hparse
  cases hparse
