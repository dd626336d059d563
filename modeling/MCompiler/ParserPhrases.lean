/-
# What the parser takes for an expression

A phrase is what `parser_parseExpression` takes from the tokens, well formed or not: where
an operand is missing it has taken another token, and the token after a group may be
another one than the closing parenthesis.

* `parserParseExpression_phrase` : on the tokens of a phrase the parser returns
  `Phrase.parsed`;
* `exists_phrase` : whenever the parser returns, it has taken the tokens of a phrase.
-/
import MCompiler.Lib.Stopping
import MCompiler.ParserChains

open OpTree

/-! ## Phrases -/

/-- The tokens taken for an expression.  `missing` is a token taken where an operand is
expected, and `next` adds an operator and an operand at the end of a chain. -/
inductive Phrase where
  | number (digit : UInt8) (digits : Range)
  | ident (name : Range)
  | missing (tok : Token)
  | signed (sign : Token) (a : Phrase)
  | group (opening : Range) (e : Phrase) (closing : Token)
  | next (e : Phrase) (op : Operator) (a : Phrase)

/-- The types of the tokens that do not begin an operand; after a sign there is no other
sign. -/
def TokenType.BeginsNone (hasPrefix : Bool) (type : TokenType) : Prop :=
  type ≠ .NUMBER ∧ type ≠ .ID ∧ type ≠ .PARAN_OPEN ∧
    (hasPrefix = true ∨ type ≠ .PLUS ∧ type ≠ .MINUS)

namespace Phrase

/-- The tokens of a phrase. -/
def tokens : Phrase → List Token
  | number digit digits => [⟨.NUMBER, digit :: digits⟩]
  | ident name => [⟨.ID, name⟩]
  | missing tok => [tok]
  | signed sign a => sign :: a.tokens
  | group opening e closing => ⟨.PARAN_OPEN, opening⟩ :: (e.tokens ++ [closing])
  | next e op a => e.tokens ++ op.1 :: a.tokens

/-- One operand, without operators outside groups. -/
def IsOperand : Phrase → Prop
  | next _ _ _ => False
  | _ => True

/-- The last operand is missing, directly or because its group is broken. -/
def IsMissing : Phrase → Prop
  | number _ _ => False
  | ident _ => False
  | missing _ => True
  | signed _ a => a.IsMissing
  | group _ e closing => closing.type ≠ .PARAN_CLOSE ∨ e.IsMissing
  | next _ _ a => a.IsMissing

/-- A chain that breaks off after an operator. -/
def BreaksOff (e : Phrase) : Prop := ¬ e.IsOperand ∧ e.IsMissing

/-- The parser goes on to `tok`: it has stopped early, or this is not an operator. -/
def StopsBefore (e : Phrase) (tok : Token) : Prop :=
  e.BreaksOff ∨ getPresedence tok.type = -1

/-- The first operand is there, or there is not exactly one operator with its operand
after it. -/
def Returns : Phrase → Prop
  | next e _ a => e.IsOperand → e.IsMissing → a.IsMissing
  | _ => True

/-- The phrases of which the parser takes all tokens, after a sign or not. -/
def Valid : Phrase → Bool → Prop
  | number _ _, _ => True
  | ident _, _ => True
  | missing tok, hasPrefix => tok.type.BeginsNone hasPrefix
  | signed sign a, hasPrefix =>
      hasPrefix = false ∧ a.IsOperand ∧ a.Valid true ∧
        (sign.type = .PLUS ∨ sign.type = .MINUS ∧ ¬ a.IsMissing)
  | group _ e closing, _ => e.Valid false ∧ e.Returns ∧ e.StopsBefore closing
  | next e _ a, _ => e.Valid false ∧ a.Valid false ∧ a.IsOperand ∧ ¬ e.BreaksOff

/-- A group ends with another token than the closing parenthesis. -/
def unclosed : Phrase → Bool
  | signed _ a => a.unclosed
  | group _ e closing => e.unclosed || closing.type ≠ .PARAN_CLOSE
  | next e _ a => e.unclosed || a.unclosed
  | _ => false

/-! ## Operands and operators -/

/-- The first operand. -/
def first : Phrase → Phrase
  | next e _ _ => e.first
  | e => e

/-- The operators, each with the operand after it. -/
def rest : Phrase → List (Operator × Phrase)
  | next e op a => e.rest ++ [(op, a)]
  | _ => []

/-- The node of a sign and an operand. -/
def signedNode (sign : Token) (node : AstNode) : AstNode :=
  if sign.type = .PLUS then node
  else
    match negateNode node with
    | .ok node => node
    | .error _ => .null

/-- What the parser reads for a phrase: the node of the first operand, and the operators
with the node of the operand after each. -/
def operands : Phrase → AstNode × List (Operator × AstNode)
  | number digit digits =>
      (.number (Int64.ofInt ((rangeParseInt (digit :: digits)).getD 0)), [])
  | ident name => (.variable name false, [])
  | missing _ => (.null, [])
  | signed sign a => (signedNode sign a.operands.1, [])
  | group _ e closing =>
      (if closing.type = .PARAN_CLOSE then chainNode id (.leaf e.operands.1) e.operands.2
        else .null, [])
  | next e op a => (e.operands.1, e.operands.2 ++ [(op, a.operands.1)])

/-- The node the parser makes of an operand. -/
def operand (a : Phrase) : AstNode := a.operands.1

/-- The tree the parser makes of a phrase. -/
def parsed (e : Phrase) : AstNode := chainNode id (.leaf e.operands.1) e.operands.2

theorem operands_eq (e : Phrase) :
    e.operands = (e.first.operand, e.rest.map fun x => (x.1, x.2.operand)) := by
  induction e with
  | next e op a ih _ =>
      rw [operands, ih, first, rest, List.map_append]
      rfl
  | _ => rfl

theorem tokens_eq (e : Phrase) : e.tokens = e.first.tokens ++ chainTokens tokens e.rest := by
  induction e with
  | next e op a ih _ =>
      rw [tokens, ih, first, rest, chainTokens, chainTokens, List.flatMap_append,
        List.append_assoc]
      simp
  | _ => exact (List.append_nil _).symm

theorem unclosed_eq (e : Phrase) :
    e.unclosed = (e.first.unclosed || e.rest.any fun x => x.2.unclosed) := by
  induction e with
  | next e op a ih _ =>
      rw [unclosed, ih, first, rest, List.any_append, Bool.or_assoc]
      simp
  | _ => exact (Bool.or_false _).symm

theorem tokens_length_pos (e : Phrase) : 0 < e.tokens.length := by
  cases e with
  | next e op a =>
      rw [tokens, List.length_append, List.length_cons]
      omega
  | _ => exact Nat.succ_pos _

/-! ## Missing operands -/

theorem parsed_eq (e : Phrase) : e.parsed = chainNode operand (.leaf e.first) e.rest := by
  have hgap : HasGap id (e.rest.map fun x => (x.1, x.2.operand)) ↔ HasGap operand e.rest := by
    simp [HasGap]
  rw [parsed, operands_eq]
  by_cases h : HasGap operand e.rest
  · rw [chainNode_of_gap h, chainNode_of_gap (hgap.mpr h)]
  · rw [chainNode_of_not_gap h, chainNode_of_not_gap (mt hgap.mp h)]
    have hmap := map_repair Operator.prec operand (.leaf e.first) e.rest
    exact (congrArg (build binaryNode id) hmap.symm).trans (build_map id operand _)

theorem operand_group (opening : Range) (e : Phrase) (closing : Token) :
    (group opening e closing).operand =
      if closing.type = .PARAN_CLOSE then e.parsed else .null := rfl

theorem operand_signed (sign : Token) (a : Phrase) :
    (signed sign a).operand = signedNode sign a.operand := rfl

theorem rest_eq_nil {e : Phrase} : e.rest = [] ↔ e.IsOperand := by
  cases e with
  | next e op a => exact iff_of_false (List.append_ne_nil_of_right_ne_nil _ (by simp)) id
  | _ => exact iff_of_true rfl trivial

theorem first_of_isOperand {e : Phrase} (h : e.IsOperand) : e.first = e := by
  cases e with
  | next e op a => exact h.elim
  | _ => rfl

/-- The nodes of operands, which have a word that a sign can be written to. -/
def Negatable : AstNode → Prop
  | .null => True
  | .number _ => True
  | .variable _ _ => True
  | .binaryExp _ _ _ _ => True
  | _ => False

theorem negateNode_of_negatable {node : AstNode} (h : Negatable node)
    (hnull : node.isNull = false) :
    ∃ node', negateNode node = .ok node' ∧ Negatable node' ∧ node'.isNull = false := by
  cases node with
  | null => cases hnull
  | number num => exact ⟨_, rfl, trivial, rfl⟩
  | «variable» varName wild => exact ⟨_, rfl, trivial, rfl⟩
  | binaryExp op l r wild => exact ⟨_, rfl, trivial, rfl⟩
  | _ => exact h.elim

theorem signedNode_negatable {node : AstNode} (h : Negatable node) (sign : Token) :
    Negatable (signedNode sign node) ∧
      ((signedNode sign node).isNull = true ↔ node.isNull = true) := by
  unfold signedNode
  split
  · exact ⟨h, Iff.rfl⟩
  · cases hnull : node.isNull with
    | true =>
        cases node with
        | null => exact ⟨trivial, Iff.rfl⟩
        | _ => cases hnull
    | false =>
        obtain ⟨node', heq, hneg, hnull'⟩ := negateNode_of_negatable h hnull
        rw [heq]
        exact ⟨hneg, by rw [hnull']⟩

theorem chainNode_negatable {a : AstNode} {xs : List (Operator × AstNode)} (ha : Negatable a) :
    Negatable (chainNode id (.leaf a) xs) := by
  by_cases hgap : HasGap id xs
  · rw [chainNode_of_gap hgap]
    trivial
  · rw [chainNode_of_not_gap hgap]
    cases xs with
    | nil => exact ha
    | cons x xs =>
        obtain ⟨o, l, r, heq⟩ := exists_repair_cons Operator.prec (.leaf a) x xs
        rw [heq]
        trivial

theorem operand_negatable (a : Phrase) : Negatable a.operand := by
  induction a with
  | number digit digits => trivial
  | ident name => trivial
  | missing tok => trivial
  | signed sign a ih => exact (signedNode_negatable ih sign).1
  | group opening e closing ih =>
      rw [operand_group]
      split
      · exact chainNode_negatable ih
      · trivial
  | next e op a ih _ => exact ih

/-- **The null pointer is returned exactly if the last operand is missing.** -/
theorem parsed_isNull_iff (e : Phrase) : ∀ hasPrefix, e.Valid hasPrefix →
    (e.parsed.isNull = true ↔ e.IsMissing) ∧ (HasGap operand e.rest ↔ e.BreaksOff) ∧
      (e.IsOperand → e.parsed = e.operand) := by
  have hop : ∀ a : Phrase, a.IsOperand → (a.operand.isNull = true ↔ a.IsMissing) →
      (a.parsed.isNull = true ↔ a.IsMissing) ∧ (HasGap operand a.rest ↔ a.BreaksOff) ∧
        (a.IsOperand → a.parsed = a.operand) := by
    intro a ha hnull
    have hrest := rest_eq_nil.mpr ha
    have hparsed : a.parsed = a.operand := by
      rw [parsed_eq, hrest, chainNode_of_not_gap not_hasGap_nil, first_of_isOperand ha]
      rfl
    refine ⟨by rw [hparsed, hnull], ?_, fun _ => hparsed⟩
    rw [hrest]
    exact iff_of_false not_hasGap_nil fun h => h.1 ha
  induction e with
  | number digit digits => exact fun _ _ => hop _ trivial (iff_of_false Bool.false_ne_true id)
  | ident name => exact fun _ _ => hop _ trivial (iff_of_false Bool.false_ne_true id)
  | missing tok => exact fun _ _ => hop _ trivial (iff_of_true rfl trivial)
  | signed sign a ih =>
      rintro hasPrefix ⟨-, ha, hvalid, -⟩
      obtain ⟨hnull, -, hparsed⟩ := ih true hvalid
      rw [hparsed ha] at hnull
      exact hop _ trivial ((signedNode_negatable (operand_negatable a) sign).2.trans hnull)
  | group opening e closing ih =>
      rintro hasPrefix ⟨hvalid, -⟩
      refine hop _ trivial ?_
      rw [operand_group]
      by_cases hclosing : closing.type = .PARAN_CLOSE
      · rw [if_pos hclosing, (ih false hvalid).1]
        exact ⟨.inr, fun h => h.resolve_left fun hne => hne hclosing⟩
      · rw [if_neg hclosing]
        exact iff_of_true rfl (.inl hclosing)
  | next e op a ihe iha =>
      rintro hasPrefix ⟨hvalid, hvalid', ha, hearlier⟩
      obtain ⟨-, hgap, -⟩ := ihe false hvalid
      obtain ⟨hnull, -, hparsed⟩ := iha false hvalid'
      rw [hparsed ha] at hnull
      have hgap' : HasGap operand (next e op a).rest ↔ a.IsMissing := by
        rw [rest, ← hnull]
        constructor
        · rintro ⟨x, hx, hx'⟩
          rcases List.mem_append.mp hx with hx | hx
          · exact absurd (hgap.mp ⟨x, hx, hx'⟩) hearlier
          · rwa [List.mem_singleton.mp hx] at hx'
        · exact fun h => ⟨(op, a), List.mem_append_right _ (List.mem_singleton.mpr rfl), h⟩
      refine ⟨?_, hgap'.trans ⟨fun h => ⟨id, h⟩, And.right⟩, False.elim⟩
      rw [parsed_eq, chainNode_leaf_isNull, hgap', rest_eq_nil]
      exact ⟨fun h => h.resolve_right fun h' => h'.1, .inl⟩

theorem Valid.parsed_isNull {e : Phrase} {hasPrefix : Bool} (h : e.Valid hasPrefix) :
    e.parsed.isNull = true ↔ e.IsMissing := (parsed_isNull_iff e hasPrefix h).1

theorem Valid.hasGap {e : Phrase} {hasPrefix : Bool} (h : e.Valid hasPrefix) :
    HasGap operand e.rest ↔ e.BreaksOff := (parsed_isNull_iff e hasPrefix h).2.1

theorem Valid.parsed_operand {a : Phrase} {hasPrefix : Bool} (h : a.Valid hasPrefix)
    (ha : a.IsOperand) : a.parsed = a.operand := (parsed_isNull_iff a hasPrefix h).2.2 ha

theorem Valid.operand_isNull {a : Phrase} {hasPrefix : Bool} (h : a.Valid hasPrefix)
    (ha : a.IsOperand) : a.operand.isNull = true ↔ a.IsMissing := by
  rw [← h.parsed_operand ha]
  exact h.parsed_isNull

theorem Valid.chainReturns {e : Phrase} {hasPrefix : Bool} (h : e.Valid hasPrefix)
    (hreturns : e.Returns) : ChainReturns operand (.leaf e.first) e.rest := by
  cases e with
  | next e op a =>
      obtain ⟨hvalid, hvalid', ha, hearlier⟩ := h
      refine ⟨?_, fun hnull hlength => ?_⟩
      · rw [rest, List.dropLast_concat]
        exact mt hvalid.hasGap.mp hearlier
      · rw [rest, List.length_append, List.length_singleton] at hlength
        have he : e.IsOperand := rest_eq_nil.mp (List.length_eq_zero_iff.mp (by omega))
        rw [first, first_of_isOperand he] at hnull
        have hmissing := hreturns he ((hvalid.operand_isNull he).mp hnull)
        exact ⟨(op, a), List.mem_append_right _ (List.mem_singleton.mpr rfl),
          (hvalid'.operand_isNull ha).mpr hmissing⟩
  | _ => exact ⟨not_hasGap_nil, fun _ hlength => by cases hlength⟩

/-! ## Reading a phrase -/

section Reading

variable {R : Type} {tokenNext : R → Token × R}

/-- An expression is read if its operands are. -/
theorem parserParseExpression_of_operands {e : Phrase} (h : e.Valid false)
    (hreturns : e.Returns) (ha : ReadsAs tokenNext tokens operand unclosed false e.first)
    (hxs : ∀ x ∈ e.rest, ReadsAs tokenNext tokens operand unclosed false x.2) (fuel : ℕ)
    (hfuel : 2 * e.tokens.length + 1 ≤ fuel) (p : Parser R) (stop : Token)
    (hstop : e.StopsBefore stop) (ts : List Token) (r' : R)
    (hp : Upcoming tokenNext p (e.tokens ++ stop :: ts) r') :
    ∃ p', parserParseExpression tokenNext fuel p = .ok (e.parsed, p') ∧
      Upcoming tokenNext p' (stop :: ts) r' ∧ p'.error = errorAfter e.unclosed p.error := by
  rw [tokens_eq] at hfuel hp
  rw [parsed_eq, unclosed_eq]
  exact parserParseExpression_chain e.first e.rest ha hxs (tokens_length_pos _)
    (h.chainReturns hreturns) fuel hfuel p stop (hstop.imp_left h.hasGap.mpr) ts r' hp

theorem reads_number (hasPrefix : Bool) (digit : UInt8) (digits : Range) :
    ReadsAs tokenNext tokens operand unclosed hasPrefix (number digit digits) := by
  intro fuel p ts r' hfuel hp
  obtain ⟨fuel, rfl⟩ : ∃ n, fuel = n + 1 := ⟨fuel - 1, by simp [tokens] at hfuel; omega⟩
  obtain ⟨p₁, hnext, hp₁, herr⟩ := Upcoming.next hp
  obtain ⟨n, hn⟩ := rangeParseInt_cons digit digits
  refine ⟨p₁, ?_, hp₁, herr⟩
  rw [parserReadAtomInternal, hnext]
  cases hasPrefix <;> simp [operand, operands, hn]

theorem reads_ident (hasPrefix : Bool) (name : Range) :
    ReadsAs tokenNext tokens operand unclosed hasPrefix (ident name) := by
  intro fuel p ts r' hfuel hp
  obtain ⟨fuel, rfl⟩ : ∃ n, fuel = n + 1 := ⟨fuel - 1, by simp [tokens] at hfuel; omega⟩
  obtain ⟨p₁, hnext, hp₁, herr⟩ := Upcoming.next hp
  refine ⟨p₁, ?_, hp₁, herr⟩
  rw [parserReadAtomInternal, hnext]
  cases hasPrefix <;> rfl

theorem reads_missing {hasPrefix : Bool} {tok : Token} (h : tok.type.BeginsNone hasPrefix) :
    ReadsAs tokenNext tokens operand unclosed hasPrefix (missing tok) := by
  intro fuel p ts r' hfuel hp
  obtain ⟨fuel, rfl⟩ : ∃ n, fuel = n + 1 := ⟨fuel - 1, by simp [tokens] at hfuel; omega⟩
  obtain ⟨p₁, hnext, hp₁, herr⟩ := Upcoming.next hp
  obtain ⟨hnumber, hid, hopen, hsign⟩ := h
  refine ⟨p₁, ?_, hp₁, herr⟩
  have hnone : ¬ (!hasPrefix && (tok.type = .MINUS || tok.type = .PLUS)) = true := by
    rcases hsign with rfl | ⟨hplus, hminus⟩
    · simp
    · simp [hplus, hminus]
  rw [parserReadAtomInternal, hnext]
  dsimp only
  rw [if_neg hnone, if_neg hopen, if_neg hnumber, if_neg hid]
  rfl

theorem reads_signed {sign : Token} {a : Phrase}
    (ha : ReadsAs tokenNext tokens operand unclosed true a)
    (hsign : sign.type = .PLUS ∨ sign.type = .MINUS ∧ a.operand.isNull = false) :
    ReadsAs tokenNext tokens operand unclosed false (signed sign a) := by
  intro fuel p ts r' hfuel hp
  simp only [tokens, List.length_cons, List.cons_append] at hfuel hp
  obtain ⟨fuel, rfl⟩ : ∃ n, fuel = n + 1 := ⟨fuel - 1, by omega⟩
  obtain ⟨p₁, hnext, hp₁, herr₁⟩ := Upcoming.next hp
  obtain ⟨p₂, hread, hp₂, herr₂⟩ := ha fuel p₁ ts r' (by omega) hp₁
  refine ⟨p₂, ?_, hp₂, by rw [herr₂, herr₁]; rfl⟩
  rw [parserReadAtomInternal, hnext, operand_signed, signedNode]
  dsimp only
  rcases hsign with hplus | ⟨hminus, hnull⟩
  · simp [hplus, hread, ok_bind]
  · obtain ⟨node, hnode, -⟩ := negateNode_of_negatable (operand_negatable a) hnull
    simp [hminus, hread, hnode, ok_bind]

/-- A group is read if the expression in it is, whatever token comes after this. -/
theorem reads_group (hasPrefix : Bool) (opening : Range) {e : Phrase} {closing : Token}
    (h : e.Valid false) (hreturns : e.Returns) (hstop : e.StopsBefore closing)
    (ha : ReadsAs tokenNext tokens operand unclosed false e.first)
    (hxs : ∀ x ∈ e.rest, ReadsAs tokenNext tokens operand unclosed false x.2) :
    ReadsAs tokenNext tokens operand unclosed hasPrefix (group opening e closing) := by
  intro fuel p ts r' hfuel hp
  simp only [tokens, List.length_cons, List.length_append, List.length_nil, List.cons_append,
    List.append_assoc, List.nil_append] at hfuel hp
  obtain ⟨fuel, rfl⟩ : ∃ n, fuel = n + 1 := ⟨fuel - 1, by omega⟩
  obtain ⟨p₁, hnext, hp₁, herr₁⟩ := Upcoming.next hp
  obtain ⟨p₂, hparse, hp₂, herr₂⟩ := parserParseExpression_of_operands h hreturns ha hxs fuel
    (by omega) p₁ closing hstop ts r' hp₁
  obtain ⟨p₃, hclose, hp₃, herr₃⟩ := Upcoming.next hp₂
  have hread : parserReadAtomInternal tokenNext (fuel + 1) p hasPrefix =
      if closing.type = .PARAN_CLOSE then .ok (e.parsed, p₃)
      else .ok (.null, { p₃ with error := some groupError }) := by
    rw [parserReadAtomInternal, hnext]
    have hparen : ¬ (!hasPrefix && (decide (TokenType.PARAN_OPEN = .MINUS) ||
        decide (TokenType.PARAN_OPEN = .PLUS))) = true := by
      simp
    dsimp only
    rw [if_neg hparen, if_pos rfl, hparse, ok_bind]
    dsimp only
    rw [hclose]
    rfl
  rw [hread, operand_group]
  by_cases hclosing : closing.type = .PARAN_CLOSE
  · refine ⟨p₃, by rw [if_pos hclosing, if_pos hclosing], hp₃, ?_⟩
    rw [herr₃, herr₂, herr₁, unclosed, decide_eq_false (not_not_intro hclosing), Bool.or_false]
  · refine ⟨{ p₃ with error := some groupError }, by rw [if_neg hclosing, if_neg hclosing],
      hp₃, ?_⟩
    rw [unclosed, decide_eq_true hclosing, Bool.or_true]
    rfl

/-- Every operand of a phrase is read, by induction on the phrase. -/
theorem reads (e : Phrase) : ∀ hasPrefix, e.Valid hasPrefix →
    (e.IsOperand → ReadsAs tokenNext tokens operand unclosed hasPrefix e) ∧
    (hasPrefix = false → ReadsAs tokenNext tokens operand unclosed false e.first ∧
      ∀ x ∈ e.rest, ReadsAs tokenNext tokens operand unclosed false x.2) := by
  have hop : ∀ (a : Phrase) (hasPrefix : Bool), a.IsOperand →
      ReadsAs tokenNext tokens operand unclosed hasPrefix a →
      (a.IsOperand → ReadsAs tokenNext tokens operand unclosed hasPrefix a) ∧
      (hasPrefix = false → ReadsAs tokenNext tokens operand unclosed false a.first ∧
        ∀ x ∈ a.rest, ReadsAs tokenNext tokens operand unclosed false x.2) := by
    intro a hasPrefix ha hreads
    refine ⟨fun _ => hreads, ?_⟩
    rintro rfl
    rw [first_of_isOperand ha, rest_eq_nil.mpr ha]
    exact ⟨hreads, fun x hx => absurd hx List.not_mem_nil⟩
  induction e with
  | number digit digits => exact fun hasPrefix _ => hop _ _ trivial (reads_number _ _ _)
  | ident name => exact fun hasPrefix _ => hop _ _ trivial (reads_ident _ _)
  | missing tok => exact fun hasPrefix h => hop _ _ trivial (reads_missing h)
  | signed sign a ih =>
      rintro hasPrefix ⟨rfl, ha, hvalid, hsign⟩
      refine hop _ _ trivial (reads_signed ((ih true hvalid).1 ha) (hsign.imp_right ?_))
      rintro ⟨hminus, hthere⟩
      exact ⟨hminus, Bool.eq_false_iff.mpr (mt (hvalid.operand_isNull ha).mp hthere)⟩
  | group opening e closing ih =>
      rintro hasPrefix ⟨hvalid, hreturns, hstop⟩
      obtain ⟨hfirst, hrest⟩ := (ih false hvalid).2 rfl
      exact hop _ _ trivial (reads_group _ _ hvalid hreturns hstop hfirst hrest)
  | next e op a ihe iha =>
      rintro hasPrefix ⟨hvalid, hvalid', ha, -⟩
      obtain ⟨hfirst, hrest⟩ := (ihe false hvalid).2 rfl
      refine ⟨False.elim, fun _ => ⟨hfirst, fun x hx => ?_⟩⟩
      rcases List.mem_append.mp hx with hx | hx
      · exact hrest x hx
      · rw [List.mem_singleton.mp hx]
        exact (iha false hvalid').1 ha

/-- **What `parser_parseExpression` returns** for the tokens of a phrase and a token
before which it stops. -/
theorem parserParseExpression_phrase {e : Phrase} (h : e.Valid false) (hreturns : e.Returns)
    (fuel : ℕ) (hfuel : 2 * e.tokens.length + 1 ≤ fuel) (p : Parser R) (stop : Token)
    (hstop : e.StopsBefore stop) (ts : List Token) (r' : R)
    (hp : Upcoming tokenNext p (e.tokens ++ stop :: ts) r') :
    ∃ p', parserParseExpression tokenNext fuel p = .ok (e.parsed, p') ∧
      Upcoming tokenNext p' (stop :: ts) r' ∧ p'.error = errorAfter e.unclosed p.error := by
  obtain ⟨hfirst, hrest⟩ := (e.reads false h).2 rfl
  exact parserParseExpression_of_operands h hreturns hfirst hrest fuel hfuel p stop hstop ts r' hp

end Reading

/-! ## What has been taken is a phrase -/

/-- The phrase of an operand and the operators and operands after it. -/
def chain (a : Phrase) (xs : List (Operator × Phrase)) : Phrase :=
  xs.foldl (fun e x => next e x.1 x.2) a

theorem chain_spec {a : Phrase} (ha : a.IsOperand) (hvalid : a.Valid false)
    (xs : List (Operator × Phrase)) (hxs : ∀ x ∈ xs, x.2.IsOperand ∧ x.2.Valid false)
    (hgap : ¬ HasGap operand xs.dropLast) :
    (a.chain xs).Valid false ∧ (a.chain xs).first = a ∧ (a.chain xs).rest = xs := by
  induction xs using List.reverseRecOn with
  | nil => exact ⟨hvalid, first_of_isOperand ha, rest_eq_nil.mpr ha⟩
  | append_singleton xs x ih =>
      rw [List.dropLast_concat] at hgap
      obtain ⟨hchain, hfirst, hrest⟩ := ih (fun y hy => hxs y (List.mem_append_left _ hy))
        fun ⟨y, hy, hnull⟩ => hgap ⟨y, List.dropLast_subset _ hy, hnull⟩
      obtain ⟨hx, hvalid'⟩ := hxs x (List.mem_append_right _ (List.mem_singleton.mpr rfl))
      have heq : a.chain (xs ++ [x]) = next (a.chain xs) x.1 x.2 := by
        rw [chain, List.foldl_append]
        rfl
      rw [heq]
      refine ⟨⟨hchain, hvalid', hx, fun hbreaks => hgap ?_⟩, hfirst, ?_⟩
      · rw [← hrest]
        exact hchain.hasGap.mpr hbreaks
      · rw [rest, hrest]

theorem Valid.returns {e : Phrase} {hasPrefix : Bool} (h : e.Valid hasPrefix)
    (hreturns : ChainReturns operand (.leaf e.first) e.rest) : e.Returns := by
  cases e with
  | next e op a =>
      obtain ⟨hvalid, hvalid', ha, -⟩ := h
      intro he hmissing
      have hrest : (next e op a).rest = [(op, a)] := by
        rw [rest, rest_eq_nil.mpr he]
        rfl
      have hnull : (build binaryNode operand (.leaf (next e op a).first)).isNull = true := by
        rw [first, first_of_isOperand he]
        exact (hvalid.operand_isNull he).mpr hmissing
      obtain ⟨x, hx, hx'⟩ := hreturns.first hnull (by rw [hrest]; rfl)
      rw [hrest] at hx
      rw [List.mem_singleton.mp hx] at hx'
      exact (hvalid'.operand_isNull ha).mp hx'
  | _ => trivial

section Taken

variable {R : Type} {tokenNext : R → Token × R}

/-- `parser_readAtomInternal` has taken the tokens of the operand `a`. -/
structure TakesOperand (tokenNext : R → Token × R) (hasPrefix : Bool) (p : Parser R)
    (a : Phrase) (node : AstNode) (p' : Parser R) : Prop where
  isOperand : a.IsOperand
  valid : a.Valid hasPrefix
  node : a.operand = node
  takes : Takes tokenNext p a.tokens p'
  error : p'.error = errorAfter a.unclosed p.error

/-- `parser_parseExpression` has taken the tokens of the phrase `e`. -/
structure TakesPhrase (tokenNext : R → Token × R) (p : Parser R) (e : Phrase) (node : AstNode)
    (p' : Parser R) : Prop where
  valid : e.Valid false
  returns : e.Returns
  stops : e.StopsBefore (parserNext tokenNext p').1
  node : e.parsed = node
  takes : Takes tokenNext p e.tokens p'
  error : p'.error = errorAfter e.unclosed p.error

/-- `parser_parseBinary` has taken the tokens of operators and operands after the tree
`t`. -/
structure TakesChain (tokenNext : R → Token × R) (p : Parser R) (t : OpTree Operator Phrase)
    (xs : List (Operator × Phrase)) (node : AstNode) (p' : Parser R) : Prop where
  operands : ∀ x ∈ xs, x.2.IsOperand ∧ x.2.Valid false
  returns : ChainReturns operand t xs
  stops : HasGap operand xs ∨ getPresedence (parserNext tokenNext p').1.type = -1
  node : chainNode operand t xs = node
  takes : Takes tokenNext p (chainTokens tokens xs) p'
  error : p'.error = errorAfter (xs.any fun x => x.2.unclosed) p.error

/-- An operand and what has been taken after it make a phrase. -/
theorem TakesOperand.phrase {p p₁ p' : Parser R} {a : Phrase} {first node : AstNode}
    {xs : List (Operator × Phrase)} (h : TakesOperand tokenNext false p a first p₁)
    (hxs : TakesChain tokenNext p₁ (.leaf a) xs node p') :
    TakesPhrase tokenNext p (a.chain xs) node p' := by
  obtain ⟨hvalid, hfirst, hrest⟩ :=
    chain_spec h.isOperand h.valid xs hxs.operands hxs.returns.earlier
  refine ⟨hvalid, hvalid.returns ?_, ?_, ?_, ?_, ?_⟩
  · rw [hfirst, hrest]
    exact hxs.returns
  · refine hxs.stops.imp_left fun hgap => hvalid.hasGap.mp ?_
    rwa [hrest]
  · rw [parsed_eq, hfirst, hrest]
    exact hxs.node
  · rw [tokens_eq, hfirst, hrest]
    exact h.takes.trans hxs.takes
  · rw [unclosed_eq, hfirst, hrest, hxs.error, h.error, errorAfter_errorAfter]

/-- What a call of `parser_readAtomInternal` takes, by what the calls in it take. -/
theorem readAtom_takes {fuel : ℕ}
    (hatom : ∀ hasPrefix (p p' : Parser R) node,
      parserReadAtomInternal tokenNext fuel p hasPrefix = .ok (node, p') →
        ∃ a, TakesOperand tokenNext hasPrefix p a node p')
    (hexp : ∀ (p p' : Parser R) node, parserParseExpression tokenNext fuel p = .ok (node, p') →
      ∃ e, TakesPhrase tokenNext p e node p')
    {hasPrefix : Bool} {p p' : Parser R} {node : AstNode}
    (h : parserReadAtomInternal tokenNext (fuel + 1) p hasPrefix = .ok (node, p')) :
    ∃ a, TakesOperand tokenNext hasPrefix p a node p' := by
  rw [parserReadAtomInternal] at h
  generalize hnext : parserNext tokenNext p = result at h
  obtain ⟨tok, p₁⟩ := result
  obtain ⟨htakes, herr⟩ := parserNext_takes hnext
  dsimp only at h
  by_cases hsign : (!hasPrefix && (tok.type = .MINUS || tok.type = .PLUS)) = true
  · rw [if_pos hsign] at h
    obtain ⟨⟨node₁, p₂⟩, hread, h⟩ := exists_of_bind_ok h
    obtain ⟨a, ha⟩ := hatom true p₁ p₂ node₁ hread
    have hmissing := ha.valid.operand_isNull ha.isOperand
    have hfresh : hasPrefix = false := by
      simp only [Bool.and_eq_true] at hsign
      simpa using hsign.1
    dsimp only at h
    by_cases hplus : tok.type = .PLUS
    · rw [if_neg (not_not_intro hplus)] at h
      cases h
      refine ⟨signed tok a, trivial, ⟨hfresh, ha.isOperand, ha.valid, .inl hplus⟩, ?_,
        htakes.trans ha.takes, by rw [ha.error, herr]; rfl⟩
      rw [operand_signed, signedNode, if_pos hplus, ha.node]
    · have hminus : tok.type = .MINUS := by
        simp only [Bool.and_eq_true, Bool.or_eq_true, decide_eq_true_eq] at hsign
        exact hsign.2.resolve_right hplus
      rw [if_pos hplus] at h
      obtain ⟨node₂, hneg, h⟩ := exists_of_bind_ok h
      cases h
      refine ⟨signed tok a, trivial, ⟨hfresh, ha.isOperand, ha.valid, .inr ⟨hminus, ?_⟩⟩, ?_,
        htakes.trans ha.takes, by rw [ha.error, herr]; rfl⟩
      · -- a sign cannot be written to the null pointer
        intro hnull
        rw [← hmissing, ha.node] at hnull
        cases node₁ with
        | null => cases hneg
        | _ => cases hnull
      · rw [operand_signed, signedNode, if_neg hplus, ha.node, hneg]
  · rw [if_neg hsign] at h
    by_cases hopen : tok.type = .PARAN_OPEN
    · rw [if_pos hopen] at h
      obtain ⟨⟨node₁, p₂⟩, hparse, h⟩ := exists_of_bind_ok h
      obtain ⟨e, he⟩ := hexp p₁ p₂ node₁ hparse
      dsimp only at h
      generalize hclose : parserNext tokenNext p₂ = result at h
      obtain ⟨closing, p₃⟩ := result
      obtain ⟨htakes₃, herr₃⟩ := parserNext_takes hclose
      have hstop := he.stops
      rw [hclose] at hstop
      have htok : tok = ⟨.PARAN_OPEN, tok.range⟩ := by rw [← hopen]
      have htaken : Takes tokenNext p (group tok.range e closing).tokens p₃ := by
        rw [tokens, ← htok]
        exact htakes.trans (he.takes.trans htakes₃)
      dsimp only at h
      by_cases hclosing : closing.type = .PARAN_CLOSE
      · rw [if_pos hclosing] at h
        cases h
        refine ⟨group tok.range e closing, trivial, ⟨he.valid, he.returns, hstop⟩, ?_, htaken, ?_⟩
        · rw [operand_group, if_pos hclosing, he.node]
        · rw [herr₃, he.error, herr, unclosed, decide_eq_false (not_not_intro hclosing),
            Bool.or_false]
      · rw [if_neg hclosing] at h
        cases h
        refine ⟨group tok.range e closing, trivial, ⟨he.valid, he.returns, hstop⟩, ?_, htaken, ?_⟩
        · rw [operand_group, if_neg hclosing]
        · rw [unclosed, decide_eq_true hclosing, Bool.or_true]
          rfl
    · rw [if_neg hopen] at h
      by_cases hnumber : tok.type = .NUMBER
      · rw [if_pos hnumber] at h
        obtain ⟨type, text⟩ := tok
        obtain rfl : type = .NUMBER := hnumber
        cases text with
        | nil => cases h
        | cons digit digits =>
            obtain ⟨n, hn⟩ := rangeParseInt_cons digit digits
            dsimp only at h
            rw [hn] at h
            cases h
            refine ⟨number digit digits, trivial, trivial, ?_, htakes, herr⟩
            rw [operand, operands, hn]
            rfl
      · rw [if_neg hnumber] at h
        by_cases hid : tok.type = .ID
        · rw [if_pos hid] at h
          cases h
          obtain ⟨type, text⟩ := tok
          obtain rfl : type = .ID := hid
          exact ⟨ident text, trivial, trivial, rfl, htakes, herr⟩
        · rw [if_neg hid] at h
          cases h
          refine ⟨missing tok, trivial, ⟨hnumber, hid, hopen, ?_⟩, rfl, htakes, herr⟩
          cases hasPrefix with
          | true => exact .inl rfl
          | false =>
              simp only [Bool.not_false, Bool.true_and, Bool.or_eq_true, decide_eq_true_eq,
                not_or] at hsign
              exact .inr ⟨hsign.2, hsign.1⟩

/-- What a call of `parser_parseBinary` takes. -/
theorem parseBinary_takes {fuel : ℕ}
    (hatom : ∀ hasPrefix (p p' : Parser R) node,
      parserReadAtomInternal tokenNext fuel p hasPrefix = .ok (node, p') →
        ∃ a, TakesOperand tokenNext hasPrefix p a node p')
    (hbin : ∀ (p p' : Parser R) (t : OpTree Operator Phrase) node,
      parserParseBinary tokenNext fuel p (t.build binaryNode operand) = .ok (node, p') →
        ∃ xs, TakesChain tokenNext p t xs node p')
    {p p' : Parser R} {t : OpTree Operator Phrase} {node : AstNode}
    (h : parserParseBinary tokenNext (fuel + 1) p (t.build binaryNode operand) =
      .ok (node, p')) :
    ∃ xs, TakesChain tokenNext p t xs node p' := by
  rw [parserParseBinary] at h
  generalize hpeek : parserPeekToken tokenNext p = result at h
  obtain ⟨tok, p₁⟩ := result
  obtain ⟨htakes₁, herr₁, htok⟩ := parserPeekToken_takes hpeek
  dsimp only at h
  by_cases hop : getPresedence tok.type = -1
  · rw [if_pos hop] at h
    cases h
    refine ⟨[], fun x hx => absurd hx List.not_mem_nil,
      ⟨not_hasGap_nil, fun _ hlength => by cases hlength⟩, .inr (by rwa [htok]), ?_, htakes₁, herr₁⟩
    exact chainNode_of_not_gap not_hasGap_nil
  · rw [if_neg hop] at h
    generalize hnext : parserNext tokenNext p₁ = result at h htok
    obtain ⟨tok', p₂⟩ := result
    obtain rfl : tok' = tok := htok
    obtain ⟨htakes₂, herr₂⟩ := parserNext_takes hnext
    dsimp only at h
    obtain ⟨⟨node₃, p₃⟩, hread, h⟩ := exists_of_bind_ok h
    obtain ⟨a, ha⟩ := hatom false p₂ p₃ node₃ hread
    have htaken := (htakes₁.trans htakes₂).trans ha.takes
    have herr₃ : p₃.error = errorAfter a.unclosed p.error := by rw [ha.error, herr₂, herr₁]
    dsimp only at h
    have hnode := ha.node
    subst hnode
    by_cases hnull : a.operand.isNull = true
    -- the operand is missing
    · rw [if_pos hnull] at h
      cases h
      have hgap : HasGap operand [((⟨tok', hop⟩ : Operator), a)] := hasGap_cons.mpr (.inl hnull)
      refine ⟨[(⟨tok', hop⟩, a)], ?_, ⟨not_hasGap_nil, fun _ _ => hgap⟩, .inl hgap,
        chainNode_of_gap hgap, ?_, ?_⟩
      · intro x hx
        rw [List.mem_singleton.mp hx]
        exact ⟨ha.isOperand, ha.valid⟩
      · simpa [chainTokens] using htaken
      · simpa using herr₃
    · rw [if_neg hnull] at h
      obtain ⟨⟨result, p₄⟩, hrest, h⟩ := exists_of_bind_ok h
      obtain ⟨xs, hxs⟩ := hbin p₃ p₄ (.node ⟨tok', hop⟩ t (.leaf a)) result hrest
      have hgap : HasGap operand (((⟨tok', hop⟩ : Operator), a) :: xs) ↔ HasGap operand xs :=
        hasGap_cons.trans (or_iff_right hnull)
      have hall : ∀ x ∈ ((⟨tok', hop⟩ : Operator), a) :: xs,
          x.2.IsOperand ∧ x.2.Valid false :=
        List.forall_mem_cons.mpr ⟨⟨ha.isOperand, ha.valid⟩, hxs.operands⟩
      have hearlier : ¬ HasGap operand (((⟨tok', hop⟩ : Operator), a) :: xs).dropLast := by
        cases xs with
        | nil => exact not_hasGap_nil
        | cons y ys => exact fun hgap => (hasGap_cons.mp hgap).elim hnull hxs.returns.earlier
      have htaken' : Takes tokenNext p
          (chainTokens tokens (((⟨tok', hop⟩ : Operator), a) :: xs)) p₄ := by
        rw [chainTokens_cons]
        simpa using htaken.trans hxs.takes
      have herr₄ : p₄.error = errorAfter
          ((((⟨tok', hop⟩ : Operator), a) :: xs).any fun x => x.2.unclosed) p.error := by
        rw [hxs.error, herr₃, errorAfter_errorAfter, List.any_cons]
      have hresult := hxs.node
      subst hresult
      dsimp only at h
      by_cases hg : HasGap operand xs
      · rw [if_pos (chainNode_isNull.mpr hg)] at h
        cases h
        exact ⟨_, hall, ⟨hearlier, fun _ _ => hgap.mpr hg⟩, .inl (hgap.mpr hg),
          chainNode_of_gap (hgap.mpr hg), htaken', herr₄⟩
      · rw [if_neg (mt chainNode_isNull.mp hg)] at h
        obtain ⟨rotated, hrotate, h⟩ := exists_of_bind_ok h
        cases h
        -- the rotation has not followed a null pointer
        have hfirst : xs = [] → (t.build binaryNode operand).isNull = false := by
          rintro rfl
          rw [chainNode_of_not_gap hg] at hrotate
          cases hl : t.build binaryNode operand with
          | null =>
              have hroot : repair Operator.prec (.node (⟨tok', hop⟩ : Operator) t (.leaf a)) [] =
                .node ⟨tok', hop⟩ t (.leaf a) := rfl
              rw [hroot, build, hl] at hrotate
              cases hrotate
          | _ => rfl
        have heq : rotateResult (Operator.prec ⟨tok', hop⟩)
            (chainNode operand (.node ⟨tok', hop⟩ t (.leaf a)) xs) =
              .ok ((repair Operator.prec t ((⟨tok', hop⟩, a) :: xs)).build binaryNode operand) :=
          rotateResult_chainNode hg hfirst
        refine ⟨_, hall, ⟨hearlier, fun hnull' hlength => ?_⟩,
          .inr (hxs.stops.resolve_left hg), ?_, htaken', herr₄⟩
        · rw [List.length_cons] at hlength
          rw [hfirst (List.length_eq_zero_iff.mp (by omega))] at hnull'
          cases hnull'
        · rw [chainNode_of_not_gap (mt hgap.mp hg)]
          exact Except.ok.inj (heq.symm.trans hrotate)

/-- **Whenever the parser returns, it has taken the tokens of a phrase.** -/
theorem exists_taken (fuel : ℕ) :
    (∀ hasPrefix (p p' : Parser R) node,
      parserReadAtomInternal tokenNext fuel p hasPrefix = .ok (node, p') →
        ∃ a, TakesOperand tokenNext hasPrefix p a node p') ∧
    (∀ (p p' : Parser R) node, parserParseExpression tokenNext fuel p = .ok (node, p') →
      ∃ e, TakesPhrase tokenNext p e node p') ∧
    (∀ (p p' : Parser R) (t : OpTree Operator Phrase) node,
      parserParseBinary tokenNext fuel p (t.build binaryNode operand) = .ok (node, p') →
        ∃ xs, TakesChain tokenNext p t xs node p') := by
  induction fuel with
  | zero =>
      refine ⟨fun _ _ _ _ h => ?_, fun _ _ _ h => ?_, fun _ _ _ _ h => ?_⟩
      · rw [parserReadAtomInternal] at h
        cases h
      · rw [parserParseExpression] at h
        cases h
      · rw [parserParseBinary] at h
        cases h
  | succ fuel ih =>
      obtain ⟨hatom, hexp, hbin⟩ := ih
      refine ⟨fun _ _ _ _ h => readAtom_takes hatom hexp h, fun p p' node h => ?_,
        fun _ _ _ _ h => parseBinary_takes hatom hbin h⟩
      rw [parserParseExpression] at h
      obtain ⟨⟨first, p₁⟩, hread, h⟩ := exists_of_bind_ok h
      obtain ⟨a, ha⟩ := hatom false p p₁ first hread
      have hfirst := ha.node
      subst hfirst
      obtain ⟨xs, hxs⟩ := hbin p₁ p' (.leaf a) node h
      exact ⟨a.chain xs, ha.phrase hxs⟩

/-- The phrase whose tokens `parser_parseExpression` has taken. -/
theorem exists_phrase {fuel : ℕ} {p p' : Parser R} {node : AstNode}
    (h : parserParseExpression tokenNext fuel p = .ok (node, p')) :
    ∃ e, TakesPhrase tokenNext p e node p' := (exists_taken fuel).2.1 p p' node h

end Taken

end Phrase
