/-
# Parsing ends on every text

The bytes left to the reader measure what is still to be parsed.  `token_next` may return
a token without taking a byte, but then it is the end, an error or a `<`, and it will be
returned again (`Progresses`); no function of the parser goes on after two of these.

* `expression_ends` : with fuel for twice the bytes left an expression ends;
* `statement_ends` : with fuel for three times the bytes left statements and blocks end;
* `parserParseFunction_terminates` : every text is parsed in finitely many steps.
-/
import MCompiler.ParserStatements
import MCompiler.TokenizerProgress

/-! ## Ending -/

/-- The computation does not run out of fuel if there is `enough` of it, and what it
returns satisfies `P` in any case. -/
def Ends {α : Type} (enough : Prop) (P : α → Prop) : Except Stop α → Prop
  | .error stop => enough → stop ≠ .outOfFuel
  | .ok a => P a

section Ends

variable {α β : Type} {enough enough' : Prop} {P Q : α → Prop} {x : Except Stop α}

theorem Ends.mono (h : Ends enough' P x) (henough : enough → enough')
    (hPQ : ∀ a, P a → Q a) : Ends enough Q x := by
  cases x with
  | error stop => exact fun he => h (henough he)
  | ok a => exact hPQ a h

/-- One computation after another. -/
theorem Ends.bind {P : β → Prop} {f : α → Except Stop β} (h : Ends enough' Q x)
    (henough : enough → enough') (hf : ∀ a, Q a → Ends enough P (f a)) :
    Ends enough P (x >>= f) := by
  cases x with
  | error stop => exact fun he => h (henough he)
  | ok a => exact hf a h

theorem Ends.ne_outOfFuel (h : Ends enough P x) (henough : enough) : x ≠ .error .outOfFuel := by
  rintro rfl
  exact h henough rfl

theorem Ends.of_not_enough {stop : Stop} (h : ¬ enough) : Ends enough P (.error stop) :=
  fun he => absurd he h

end Ends

/-! ## The reader -/

/-- The tokens that may be returned without taking a byte. -/
def TokenType.Waits (type : TokenType) : Prop :=
  type = .EEOF ∨ type = .ERROR ∨ type = .LESS_THAN

instance (type : TokenType) : Decidable type.Waits := inferInstanceAs (Decidable (_ ∨ _))

/-- Every token takes bytes, or is one that waits and is returned again. -/
def Progresses {R : Type} (tokenNext : R → Token × R) (size : R → ℕ) : Prop :=
  ∀ r, size (tokenNext r).2 < size r ∨
    (size (tokenNext r).2 = size r ∧ (tokenNext r).1.type.Waits ∧
      (tokenNext (tokenNext r).2).1.type = (tokenNext r).1.type)

/-- The bytes left to a reader. -/
def bytesLeft (reader : Reader) : ℕ := reader.range.text.length

/-- The split of a text at its first character that is not white. -/
theorem white_eq_nil {white text rest : Range} {c d : UInt8} (h : c :: text = white ++ d :: rest)
    (hwhite : ∀ x ∈ white, isWhite x) (hc : isWhite c = false) : c = d := by
  cases white with
  | nil => exact (List.cons.inj h).1
  | cons x white =>
      have hx := hwhite x List.mem_cons_self
      rw [← (List.cons.inj h).1, hc] at hx
      cases hx

/-- The tokens that wait, by the next character of the text. -/
theorem tokenNext_type_of_head (reader : Reader) :
    (reader.range.text = [] → (tokenNext reader).1.type = .EEOF) ∧
    (∀ c text, reader.range.text = c :: text → isTokenChar c = false →
      (tokenNext reader).1.type = .ERROR) ∧
    (∀ text, reader.range.text = byte '<' :: text →
      (tokenNext reader).1.type = .LESS_THAN) := by
  have hspec := tokenNext_spec reader
  generalize tokenNext reader = result at hspec ⊢
  have hwhite_false : ∀ {c}, isTokenChar c = false → isWhite c = false := by
    intro c hc
    simp_all [isTokenChar]
  have hless : isTokenChar (byte '<') = true ∧ isWhite (byte '<') = false := by decide
  cases hspec with
  | eof htext hwhite htype hreader =>
      refine ⟨fun _ => htype, fun c text h hc => ?_, fun text h => ?_⟩
      · have hin := hwhite c (by rw [← htext, h]; exact List.mem_cons_self)
        rw [hwhite_false hc] at hin
        cases hin
      · have hin := hwhite (byte '<') (by rw [← htext, h]; exact List.mem_cons_self)
        rw [hless.2] at hin
        cases hin
  | error htext hwhite hchar htype hreader =>
      refine ⟨fun h => ?_, fun _ _ _ _ => htype, fun text h => ?_⟩
      · rw [h] at htext
        simp at htext
      · rw [h] at htext
        rw [← white_eq_nil htext hwhite hless.2, hless.1] at hchar
        cases hchar
  | less htext hwhite htype hrange hreader =>
      refine ⟨fun h => ?_, fun c text h hc => ?_, fun _ _ => htype⟩
      · rw [h] at htext
        simp at htext
      · rw [h] at htext
        rw [white_eq_nil htext hwhite (hwhite_false hc), hless.1] at hc
        cases hc
  | token htext hwhite hnot hne hspec =>
      refine ⟨fun h => ?_, fun c text h hc => ?_, fun text h => ?_⟩
      · rw [h] at htext
        simp at htext
      · obtain ⟨rest, hrest, -⟩ := hspec.split
        rw [h] at htext
        have hhead := white_eq_nil htext hwhite (hwhite_false hc)
        obtain ⟨d, word, hword⟩ := List.exists_cons_of_ne_nil hspec.ne_nil
        rw [hword] at hrest
        have hd := (hspec.chars d (by rw [hword]; exact List.mem_cons_self)).1
        rw [← (List.cons.inj hrest).1, ← hhead, hc] at hd
        cases hd
      · rw [h] at htext
        exact absurd (white_eq_nil htext hwhite hless.2).symm hne

/-- **The tokenizer progresses.** -/
theorem readToken_progresses : Progresses readToken bytesLeft := by
  intro reader
  show bytesLeft (tokenNext reader).2 < bytesLeft reader ∨
    (bytesLeft (tokenNext reader).2 = bytesLeft reader ∧ (tokenNext reader).1.type.Waits ∧
      (tokenNext (tokenNext reader).2).1.type = (tokenNext reader).1.type)
  have hspec := tokenNext_spec reader
  obtain ⟨heof, herror, hless⟩ := tokenNext_type_of_head (tokenNext reader).2
  have hstep : ∀ {white rest : Range}, reader.range.text = white ++ rest →
      (tokenNext reader).2.range.text = rest →
      bytesLeft (tokenNext reader).2 < bytesLeft reader ∨
        bytesLeft (tokenNext reader).2 = bytesLeft reader := by
    intro white rest htext hrest
    unfold bytesLeft
    rw [htext, hrest, List.length_append]
    omega
  generalize hresult : tokenNext reader = result at *
  cases hspec with
  | @eof token reader' white htext hwhite htype hreader =>
      have hrest : reader'.range.text = [] := by rw [hreader]
      refine (hstep (htext.trans (List.append_nil _).symm) hrest).imp_right fun h => ⟨h, ?_, ?_⟩
      · exact .inl htype
      · exact (heof hrest).trans htype.symm
  | @error token reader' white c text htext hwhite hchar htype hreader =>
      have hrest : reader'.range.text = c :: text := by rw [hreader]
      refine (hstep htext hrest).imp_right fun h => ⟨h, ?_, ?_⟩
      · exact .inr (.inl htype)
      · exact (herror c text hrest hchar).trans htype.symm
  | @less token reader' white text htext hwhite htype hrange hreader =>
      have hrest : reader'.range.text = byte '<' :: text := by rw [hreader]
      refine (hstep htext hrest).imp_right fun h => ⟨h, ?_, ?_⟩
      · exact .inr (.inr htype)
      · exact (hless text hrest).trans htype.symm
  | @token token reader' white c text htext hwhite hnot hne hspec =>
      left
      obtain ⟨rest, hrest, hreader⟩ := hspec.split
      have hpos := List.length_pos_iff.mpr hspec.ne_nil
      unfold bytesLeft
      rw [htext, hrest, hreader, List.length_append, List.length_append]
      dsimp only at hpos ⊢
      omega

/-! ## Taking tokens -/

section Parsing

variable {R : Type} {tokenNext : R → Token × R} {size : R → ℕ}

theorem Progresses.size_le (h : Progresses tokenNext size) (r : R) :
    size (tokenNext r).2 ≤ size r := by
  rcases h r with hlt | ⟨heq, -⟩
  · exact hlt.le
  · exact heq.le

/-- The next token, when none has been peeked at. -/
theorem parserNext_of_noPeek {p : Parser R} (hpeek : p.hasPeek = false) :
    parserNext tokenNext p =
      ((tokenNext p.reader).1, { p with reader := (tokenNext p.reader).2 }) := by
  unfold parserNext
  simp [hpeek]

/-- Afterwards none is peeked at, and no bytes have come back. -/
theorem Progresses.next (h : Progresses tokenNext size) (p : Parser R) :
    (parserNext tokenNext p).2.hasPeek = false ∧
      size (parserNext tokenNext p).2.reader ≤ size p.reader := by
  unfold parserNext
  split
  · exact ⟨rfl, Nat.le_refl _⟩
  · rename_i hpeek
    exact ⟨Bool.eq_false_iff.mpr hpeek, h.size_le p.reader⟩

/-- A token that does not wait takes bytes. -/
theorem Progresses.next_lt (h : Progresses tokenNext size) {p : Parser R}
    (hpeek : p.hasPeek = false) (hwaits : ¬ (parserNext tokenNext p).1.type.Waits) :
    size (parserNext tokenNext p).2.reader < size p.reader := by
  rw [parserNext_of_noPeek hpeek] at hwaits ⊢
  rcases h p.reader with hlt | ⟨-, hw, -⟩
  · exact hlt
  · exact absurd hw hwaits

/-- Taking the token that has been peeked at. -/
theorem parserNext_peekToken (p : Parser R) (hpeek : p.hasPeek = false) :
    parserNext tokenNext (parserPeekToken tokenNext p).2 =
      ((tokenNext p.reader).1,
        { p with reader := (tokenNext p.reader).2, peek := ⟨.ERROR, []⟩ }) := by
  unfold parserNext parserPeekToken
  simp [hpeek]

theorem parserPeekToken_of_noPeek {p : Parser R} (hpeek : p.hasPeek = false) :
    parserPeekToken tokenNext p = ((tokenNext p.reader).1,
      { p with
        reader := (tokenNext p.reader).2, peek := (tokenNext p.reader).1, hasPeek := true }) := by
  unfold parserPeekToken
  simp [hpeek]

/-! ## Expressions -/

/-- The parser returns a node, and no bytes have come back. -/
def Within (size : R → ℕ) (n : ℕ) (result : AstNode × Parser R) : Prop :=
  size result.2.reader ≤ n

/-- So after an operand, where no token is peeked at. -/
def OperandWithin (size : R → ℕ) (n : ℕ) (result : AstNode × Parser R) : Prop :=
  result.2.hasPeek = false ∧ size result.2.reader ≤ n

/-- A `<` is not an operand. -/
theorem readAtom_of_lessThan (fuel : ℕ) (p : Parser R) (hasPrefix : Bool)
    (h : (parserNext tokenNext p).1.type = .LESS_THAN) :
    parserReadAtomInternal tokenNext (fuel + 1) p hasPrefix =
      .ok (.null, (parserNext tokenNext p).2) := by
  unfold parserReadAtomInternal
  simp [h]

theorem negateNode_ends (node : AstNode) : Ends True (fun _ => True) (negateNode node) := by
  cases node <;> simp [negateNode, Ends]

theorem rotateResult_ends (opPrec : ℤ) (node : AstNode) :
    Ends True (fun _ => True) (rotateResult opPrec node) := by
  unfold rotateResult
  split
  · split
    · simp [Ends]
    · dsimp only
      split <;> trivial
    · trivial
  · simp [Ends]

/-- **Expressions end.**  The three functions are called without a token peeked at. -/
theorem expression_ends (h : Progresses tokenNext size) (fuel : ℕ) :
    (∀ (p : Parser R) (hasPrefix : Bool), p.hasPeek = false →
      Ends (2 * size p.reader + 2 ≤ fuel) (OperandWithin size (size p.reader))
        (parserReadAtomInternal tokenNext fuel p hasPrefix)) ∧
    (∀ p : Parser R, p.hasPeek = false →
      Ends (2 * size p.reader + 3 ≤ fuel) (Within size (size p.reader))
        (parserParseExpression tokenNext fuel p)) ∧
    (∀ (p : Parser R) (left : AstNode), p.hasPeek = false →
      Ends (2 * size p.reader + 2 ≤ fuel) (Within size (size p.reader))
        (parserParseBinary tokenNext fuel p left)) := by
  induction fuel with
  | zero =>
      refine ⟨?_, ?_, ?_⟩ <;> intros
      · exact Ends.of_not_enough (by omega)
      · exact Ends.of_not_enough (by omega)
      · exact Ends.of_not_enough (by omega)
  | succ fuel ih =>
      obtain ⟨ihatom, ihexpression, ihbinary⟩ := ih
      refine ⟨?_, ?_, ?_⟩
      · -- an operand: what follows a sign or a parenthesis has fewer bytes
        intro p hasPrefix hpeek
        obtain ⟨hpeek₁, hle⟩ := h.next p
        have hlt := h.next_lt hpeek
        unfold parserReadAtomInternal
        generalize parserNext tokenNext p = next at hpeek₁ hle hlt
        obtain ⟨tok, p₁⟩ := next
        dsimp only at hpeek₁ hle hlt ⊢
        split
        · rename_i hsign
          simp only [Bool.and_eq_true, Bool.or_eq_true, decide_eq_true_eq] at hsign
          have hwaits : ¬ tok.type.Waits := by
            rcases hsign.2 with htype | htype <;> rw [htype] <;> decide
          have hlt := hlt hwaits
          apply (ihatom p₁ true hpeek₁).bind (by omega)
          rintro ⟨node, p₂⟩ ⟨hpeek₂, hle₂⟩
          have hdone : OperandWithin size (size p.reader) (node, p₂) := ⟨hpeek₂, by
            dsimp only at hle₂ ⊢
            omega⟩
          dsimp only
          split
          · apply (negateNode_ends node).bind (fun _ => trivial)
            intro node' _
            exact hdone
          · exact hdone
        · split
          · rename_i hparan
            have hlt := hlt (by rw [hparan]; decide)
            apply (ihexpression p₁ hpeek₁).bind (by omega)
            rintro ⟨node, p₂⟩ hle₂
            obtain ⟨hpeek₃, hle₃⟩ := h.next p₂
            generalize parserNext tokenNext p₂ = next at hpeek₃ hle₃
            obtain ⟨tok, p₃⟩ := next
            have hle₂ : size p₂.reader ≤ size p₁.reader := hle₂
            dsimp only at hpeek₃ hle₃ ⊢
            split
            · exact ⟨hpeek₃, by dsimp only; omega⟩
            · exact ⟨hpeek₃, by dsimp only; omega⟩
          · split
            · split
              · simp [Ends]
              · exact ⟨hpeek₁, hle⟩
            · split
              · exact ⟨hpeek₁, hle⟩
              · exact ⟨hpeek₁, hle⟩
      · intro p hpeek
        unfold parserParseExpression
        apply (ihatom p false hpeek).bind (by omega)
        rintro ⟨node, p₁⟩ ⟨hpeek₁, hle₁⟩
        dsimp only at hpeek₁ hle₁
        apply (ihbinary p₁ node hpeek₁).mono (by omega)
        intro result hresult
        exact Nat.le_trans hresult hle₁
      · intro p left hpeek
        unfold parserParseBinary
        have hstep := h p.reader
        have hle := h.size_le p.reader
        have hpeekNext := @parserNext_peekToken _ tokenNext p hpeek
        rw [parserPeekToken_of_noPeek hpeek] at hpeekNext ⊢
        dsimp only at hpeekNext ⊢
        split
        · exact hle
        · rename_i hprec
          rw [hpeekNext]
          dsimp only
          -- the parser after the operator
          generalize hp₁ : ({ p with
            reader := (tokenNext p.reader).2, peek := ⟨.ERROR, []⟩ } : Parser R) = p₁
          have hpeek₁ : p₁.hasPeek = false := by rw [← hp₁]; exact hpeek
          have hreader₁ : p₁.reader = (tokenNext p.reader).2 := by rw [← hp₁]
          rcases hstep with hlt | ⟨heq, hwaits, hagain⟩
          · -- the operator has taken bytes
            rw [← hreader₁] at hlt
            apply (ihatom p₁ false hpeek₁).bind (by omega)
            rintro ⟨node, p₂⟩ ⟨hpeek₂, hle₂⟩
            dsimp only at hpeek₂ hle₂ ⊢
            split
            · show size p₂.reader ≤ size p.reader
              omega
            · apply (ihbinary p₂ _ hpeek₂).bind (by omega)
              rintro ⟨result, p₃⟩ hle₃
              have hle₃ : size p₃.reader ≤ size p₂.reader := hle₃
              have hdone : size p₃.reader ≤ size p.reader := by omega
              dsimp only
              split
              · exact hdone
              · apply (rotateResult_ends _ result).bind (fun _ => trivial)
                intro result' _
                exact hdone
          · -- a `<` that is returned again in place of the operand
            have hless : (tokenNext p.reader).1.type = .LESS_THAN := by
              rcases hwaits with hw | hw | hw
              · rw [hw] at hprec
                exact absurd rfl hprec
              · rw [hw] at hprec
                exact absurd rfl hprec
              · exact hw
            cases fuel with
            | zero => exact Ends.of_not_enough (by omega)
            | succ fuel =>
                rw [readAtom_of_lessThan fuel p₁ false
                  (by rw [parserNext_of_noPeek hpeek₁, hreader₁]; exact hagain.trans hless)]
                show Within size (size p.reader) _
                rw [parserNext_of_noPeek hpeek₁, hreader₁]
                exact Nat.le_trans (h.size_le _) hle

/-! ## Statements -/

/-- The result of a statement or of a block: no bytes have come back, and after a node no
token is peeked at. -/
def StatementWithin (size : R → ℕ) (n : ℕ) (result : AstNode × Parser R) : Prop :=
  size result.2.reader ≤ n ∧ (result.1.isNull = false → result.2.hasPeek = false)

theorem StatementWithin.mono {n m : ℕ} {result : AstNode × Parser R}
    (h : StatementWithin size n result) (hle : n ≤ m) : StatementWithin size m result :=
  ⟨h.1.trans hle, h.2⟩

/-- A failed parse returns the null pointer. -/
theorem StatementWithin.null {n : ℕ} {p : Parser R} (h : size p.reader ≤ n) :
    StatementWithin size n (.null, p) :=
  ⟨h, fun hnull => by cases hnull⟩

/-- A required token is taken, or the parse fails. -/
theorem parserExpect_ends (h : Progresses tokenNext size) {p : Parser R} {type : TokenType}
    {error : String} {next : Parser R → Except Stop (AstNode × Parser R)} {enough : Prop} {n : ℕ}
    (hle : size p.reader ≤ n)
    (hnext : ∀ p' : Parser R, p'.hasPeek = false → size p'.reader ≤ size p.reader →
      (p.hasPeek = false → ¬ type.Waits → size p'.reader < size p.reader) →
      Ends enough (StatementWithin size n) (next p')) :
    Ends enough (StatementWithin size n) (parserExpect tokenNext p type error next) := by
  obtain ⟨hpeek', hle'⟩ := h.next p
  have hlt := h.next_lt (p := p)
  unfold parserExpect
  generalize parserNext tokenNext p = result at hpeek' hle' hlt
  obtain ⟨tok, p'⟩ := result
  dsimp only at hpeek' hle' hlt ⊢
  split
  · rename_i htype
    rw [htype] at hlt
    exact hnext p' hpeek' hle' hlt
  · exact .null (hle'.trans hle)

theorem parserParseAssignment_ends (h : Progresses tokenNext size) (fuel : ℕ) (p : Parser R)
    (varName : Range) :
    Ends (2 * size p.reader + 3 ≤ fuel) (Within size (size p.reader))
      (parserParseAssignment tokenNext fuel p varName) := by
  obtain ⟨hpeek, hle⟩ := h.next p
  unfold parserParseAssignment
  apply ((expression_ends h fuel).2.1 _ hpeek).bind (by omega)
  rintro ⟨assigned, p'⟩ hle'
  have hdone : size p'.reader ≤ size p.reader := Nat.le_trans hle' hle
  dsimp only
  split
  · exact hdone
  · exact hdone

theorem parserParseDeclaration_ends (h : Progresses tokenNext size) (fuel : ℕ) (p : Parser R) :
    Ends (2 * size p.reader + 3 ≤ fuel) (StatementWithin size (size p.reader))
      (parserParseDeclaration tokenNext fuel p) := by
  unfold parserParseDeclaration
  obtain ⟨-, hle₁⟩ := h.next p
  generalize parserNext tokenNext p = result at hle₁
  obtain ⟨dataType, p₁⟩ := result
  dsimp only at hle₁ ⊢
  split
  · obtain ⟨-, hle₂⟩ := h.next p₁
    generalize parserNext tokenNext p₁ = result at hle₂
    obtain ⟨id, p₂⟩ := result
    dsimp only at hle₂ ⊢
    apply (parserParseAssignment_ends h fuel p₂ id.range).bind (by omega)
    rintro ⟨assignment, p₃⟩ hle₃
    have hle₃ : size p₃.reader ≤ size p₂.reader := hle₃
    dsimp only
    split
    · exact .null (by omega)
    · apply parserExpect_ends h (by omega)
      intro p₄ hpeek₄ hle₄ _
      exact ⟨by dsimp only; omega, fun _ => hpeek₄⟩
  · simp [Ends]

theorem parserParseAssignmentOrCall_ends (h : Progresses tokenNext size) (fuel : ℕ)
    (p : Parser R) :
    Ends (2 * size p.reader + 3 ≤ fuel) (StatementWithin size (size p.reader))
      (parserParseAssignmentOrCall tokenNext fuel p) := by
  unfold parserParseAssignmentOrCall
  obtain ⟨hpeek₁, hle₁⟩ := h.next p
  generalize parserNext tokenNext p = result at hpeek₁ hle₁
  obtain ⟨tok, p₁⟩ := result
  dsimp only at hpeek₁ hle₁ ⊢
  split
  · have hle₂ := h.size_le p₁.reader
    rw [parserPeekToken_of_noPeek hpeek₁]
    dsimp only
    split
    · apply (parserParseAssignment_ends h fuel _ tok.range).bind (by dsimp only; omega)
      rintro ⟨result, p₃⟩ hle₃
      have hle₃ : size p₃.reader ≤ size (tokenNext p₁.reader).2 := hle₃
      apply parserExpect_ends h (by dsimp only; omega)
      intro p₄ hpeek₄ hle₄ _
      exact ⟨by dsimp only at hle₄ ⊢; omega, fun _ => hpeek₄⟩
    · exact .null (by dsimp only; omega)
  · exact .null hle₁

theorem parserParseReturn_ends (h : Progresses tokenNext size) (p : Parser R) :
    Ends True (StatementWithin size (size p.reader)) (parserParseReturn tokenNext p) := by
  obtain ⟨-, hle⟩ := h.next p
  unfold parserParseReturn
  apply parserExpect_ends h hle
  intro p' hpeek' hle' _
  exact ⟨hle'.trans hle, fun _ => hpeek'⟩

/-- The head of an `if` or a `while` takes the parenthesis. -/
theorem parserParseCondition_ends (h : Progresses tokenNext size) {fuel : ℕ} {p : Parser R}
    {next : AstNode → Parser R → Except Stop (AstNode × Parser R)} {enough : Prop}
    (henough : enough → 2 * size p.reader + 3 ≤ fuel)
    (hnext : ∀ (condition : AstNode) (p' : Parser R), p'.hasPeek = false →
      size p'.reader < size p.reader →
      Ends enough (StatementWithin size (size p.reader)) (next condition p')) :
    Ends enough (StatementWithin size (size p.reader))
      (parserParseCondition tokenNext fuel p next) := by
  obtain ⟨hpeek₁, hle₁⟩ := h.next p
  unfold parserParseCondition
  generalize parserNext tokenNext p = result at hpeek₁ hle₁
  obtain ⟨_, p₁⟩ := result
  dsimp only at hpeek₁ hle₁ ⊢
  apply parserExpect_ends h hle₁
  intro p₂ hpeek₂ _ hlt₂
  have hlt₂ := hlt₂ hpeek₁ (by decide)
  apply ((expression_ends h fuel).2.1 p₂ hpeek₂).bind (fun he => by have := henough he; omega)
  rintro ⟨condition, p₃⟩ hle₃
  have hle₃ : size p₃.reader ≤ size p₂.reader := hle₃
  dsimp only
  split
  · exact .null (by omega)
  · apply parserExpect_ends h (by omega)
    intro p₄ hpeek₄ hle₄ _
    exact hnext condition p₄ hpeek₄ (by omega)

/-- A statement that starts with a waiting token fails at once. -/
theorem parserParseStatement_of_waits (fuel : ℕ) (p : Parser R)
    (hwaits : (parserPeekToken tokenNext p).1.type.Waits) :
    parserParseStatement tokenNext (fuel + 1) p = (parserPeekToken tokenNext p).2.fail
      "Unrecognized token while trying to parse statement" := by
  unfold parserParseStatement
  generalize parserPeekToken tokenNext p = result at hwaits ⊢
  obtain ⟨op, p'⟩ := result
  dsimp only at hwaits ⊢
  rcases hwaits with htype | htype | htype <;> simp [htype, isDataType]

theorem parserPeekToken_of_hasPeek {p : Parser R} (hpeek : p.hasPeek = true) :
    parserPeekToken tokenNext p = (p.peek, p) := by
  unfold parserPeekToken
  rw [if_pos hpeek]

/-- **A pass of the loop of a block.**  After a waiting token it ends; a statement has
taken a byte. -/
theorem pass_ends (h : Progresses tokenNext size) {fuel : ℕ}
    (hstatement : ∀ p : Parser R, p.hasPeek = true →
      Ends (3 * size p.reader + 5 ≤ fuel) (StatementWithin size (size p.reader))
        (parserParseStatement tokenNext fuel p))
    {p : Parser R} (hpeek : p.hasPeek = false) :
    Ends (3 * size p.reader + 2 ≤ fuel)
      (fun result => StatementWithin size (size p.reader) result ∧
        (result.1.isNull = false → size result.2.reader < size p.reader))
      (parserParseStatement tokenNext fuel (parserPeekToken tokenNext p).2) := by
  rcases h p.reader with hlt | ⟨heq, hwaits, -⟩
  · have hreader : size (parserPeekToken tokenNext p).2.reader < size p.reader := by
      rw [parserPeekToken_of_noPeek hpeek]
      exact hlt
    apply (hstatement _ (by rw [parserPeekToken_of_noPeek hpeek])).mono (by omega)
    intro result hresult
    exact ⟨hresult.mono hreader.le, fun _ => lt_of_le_of_lt hresult.1 hreader⟩
  · cases fuel with
    | zero => exact Ends.of_not_enough (by omega)
    | succ fuel =>
        have hpeeked := @parserPeekToken_of_noPeek _ tokenNext _ hpeek
        rw [parserParseStatement_of_waits fuel _ (by
          rw [parserPeekToken_of_hasPeek (by rw [hpeeked]), hpeeked]
          exact hwaits), parserPeekToken_of_hasPeek (by rw [hpeeked]), hpeeked]
        exact ⟨.null heq.le, fun hnull => by cases hnull⟩

/-- An `if` or a `while`, of a block with fewer bytes. -/
theorem conditional_ends (h : Progresses tokenNext size) {fuel : ℕ}
    (hblock : ∀ p : Parser R, p.hasPeek = false →
      Ends (3 * size p.reader + 6 ≤ fuel) (StatementWithin size (size p.reader))
        (parserParseBlock tokenNext fuel p))
    (node : AstNode → AstNode → AstNode) (p : Parser R) :
    Ends (3 * size p.reader + 4 ≤ fuel + 1) (StatementWithin size (size p.reader))
      (parserParseCondition tokenNext fuel p fun condition p => do
        let (block, p) ← parserParseBlock tokenNext fuel p
        if block.isNull then .ok (.null, p) else .ok (node condition block, p)) := by
  apply parserParseCondition_ends h (by omega)
  intro condition p' hpeek' hlt
  apply (hblock p' hpeek').bind (by omega)
  rintro ⟨block, p''⟩ hwithin
  dsimp only
  split
  · exact .null (hwithin.1.trans hlt.le)
  · rename_i hnull
    exact ⟨hwithin.1.trans hlt.le, fun _ => hwithin.2 (Bool.eq_false_iff.mpr hnull)⟩

theorem zoneAlloc_ends (size : ℕ) : Ends True (fun _ => True) (zoneAlloc size) := by
  unfold zoneAlloc
  split <;> simp [Ends]

/-- **Statements and blocks end.**  Statements are called after a token has been peeked
at, blocks and the passes of their loop before. -/
theorem statement_ends (h : Progresses tokenNext size) (fuel : ℕ) :
    (∀ p : Parser R, p.hasPeek = true →
      Ends (3 * size p.reader + 5 ≤ fuel) (StatementWithin size (size p.reader))
        (parserParseStatement tokenNext fuel p)) ∧
    (∀ p : Parser R, p.hasPeek = true →
      Ends (3 * size p.reader + 4 ≤ fuel) (StatementWithin size (size p.reader))
        (parserParseIf tokenNext fuel p)) ∧
    (∀ p : Parser R, p.hasPeek = true →
      Ends (3 * size p.reader + 4 ≤ fuel) (StatementWithin size (size p.reader))
        (parserParseWhile tokenNext fuel p)) ∧
    (∀ (p : Parser R) (statements : List AstNode), p.hasPeek = false →
      Ends (3 * size p.reader + 3 ≤ fuel) (fun result => size result.2.reader ≤ size p.reader)
        (parserBlockLoop tokenNext fuel p statements)) ∧
    (∀ p : Parser R, p.hasPeek = false →
      Ends (3 * size p.reader + 6 ≤ fuel) (StatementWithin size (size p.reader))
        (parserParseBlock tokenNext fuel p)) := by
  induction fuel with
  | zero =>
      refine ⟨?_, ?_, ?_, ?_, ?_⟩ <;> intros
      · exact Ends.of_not_enough (by omega)
      · exact Ends.of_not_enough (by omega)
      · exact Ends.of_not_enough (by omega)
      · exact Ends.of_not_enough (by omega)
      · exact Ends.of_not_enough (by omega)
  | succ fuel ih =>
      obtain ⟨ihstatement, ihif, ihwhile, ihloop, ihblock⟩ := ih
      refine ⟨?_, ?_, ?_, ?_, ?_⟩
      · intro p hpeek
        unfold parserParseStatement
        rw [parserPeekToken_of_hasPeek hpeek]
        dsimp only
        split
        · exact (parserParseDeclaration_ends h fuel p).mono (by omega) fun _ => id
        · split
          · exact (ihif p hpeek).mono (by omega) fun _ => id
          · exact (ihwhile p hpeek).mono (by omega) fun _ => id
          · exact (parserParseReturn_ends h p).mono (fun _ => trivial) fun _ => id
          · exact (parserParseAssignmentOrCall_ends h fuel p).mono (by omega) fun _ => id
          · exact .null (Nat.le_refl _)
      · intro p _
        unfold parserParseIf
        exact conditional_ends h ihblock .if p
      · intro p _
        unfold parserParseWhile
        exact conditional_ends h ihblock .while p
      · intro p statements hpeek
        have hpass := pass_ends h ihstatement hpeek
        have hle : size (parserPeekToken tokenNext p).2.reader ≤ size p.reader := by
          rw [parserPeekToken_of_noPeek hpeek]
          exact h.size_le p.reader
        unfold parserBlockLoop
        generalize parserPeekToken tokenNext p = result at hpass hle
        obtain ⟨tok, p₁⟩ := result
        dsimp only at hpass hle ⊢
        split
        · exact hle
        · split
          · exact hle
          · apply hpass.bind (by omega)
            rintro ⟨node, p₂⟩ ⟨hwithin, hlt⟩
            dsimp only at hlt ⊢
            split
            · exact hwithin.1
            · rename_i hnull
              rw [Bool.not_eq_true] at hnull
              have hlt := hlt hnull
              apply (ihloop p₂ _ (hwithin.2 hnull)).mono (by omega)
              exact fun _ hle => hle.trans hlt.le
      · intro p hpeek
        have hpass := pass_ends h ihstatement hpeek
        have hle : size (parserPeekToken tokenNext p).2.reader ≤ size p.reader := by
          rw [parserPeekToken_of_noPeek hpeek]
          exact h.size_le p.reader
        unfold parserParseBlock
        generalize parserPeekToken tokenNext p = result at hpass hle
        obtain ⟨op, p₁⟩ := result
        dsimp only at hpass hle ⊢
        split
        · obtain ⟨hpeek₂, hle₂⟩ := h.next p₁
          generalize parserNext tokenNext p₁ = result at hpeek₂ hle₂
          obtain ⟨_, p₂⟩ := result
          dsimp only at hpeek₂ hle₂ ⊢
          apply (ihloop p₂ [] hpeek₂).bind (by omega)
          rintro ⟨statements, p₃⟩ hle₃
          dsimp only at hle₃ ⊢
          split
          · exact .null (by omega)
          · obtain ⟨hpeek₄, hle₄⟩ := h.next p₃
            apply (zoneAlloc_ends _).bind (fun _ => trivial)
            intro _ _
            exact ⟨by dsimp only; omega, fun _ => hpeek₄⟩
        · apply hpass.bind (by omega)
          rintro ⟨node, p₂⟩ ⟨hwithin, -⟩
          dsimp only
          split
          · exact .null hwithin.1
          · rename_i hnull
            apply (zoneAlloc_ends _).bind (fun _ => trivial)
            intro _ _
            exact ⟨hwithin.1, fun _ => hwithin.2 (Bool.eq_false_iff.mpr hnull)⟩

/-- **Functions end.** -/
theorem function_ends (h : Progresses tokenNext size) (fuel : ℕ) (p : Parser R) :
    Ends (3 * size p.reader + 6 ≤ fuel) (StatementWithin size (size p.reader))
      (parserParseFunction tokenNext fuel p) := by
  unfold parserParseFunction
  obtain ⟨-, hle₁⟩ := h.next p
  generalize parserNext tokenNext p = result at hle₁
  obtain ⟨dataType, p₁⟩ := result
  dsimp only at hle₁ ⊢
  split
  · obtain ⟨-, hle₂⟩ := h.next p₁
    generalize parserNext tokenNext p₁ = result at hle₂
    obtain ⟨name, p₂⟩ := result
    dsimp only at hle₂ ⊢
    split
    · apply parserExpect_ends h (by omega)
      intro p₃ _ hle₃ _
      apply parserExpect_ends h (by omega)
      intro p₄ hpeek₄ hle₄ _
      apply ((statement_ends h fuel).2.2.2.2 p₄ hpeek₄).bind (by omega)
      rintro ⟨block, p₅⟩ hwithin
      have hle₅ := hwithin.1
      dsimp only at hle₅ ⊢
      split
      · exact .null (by omega)
      · rename_i hnull
        exact ⟨by dsimp only; omega, fun _ => hwithin.2 (Bool.eq_false_iff.mpr hnull)⟩
    · exact .null (by dsimp only; omega)
  · exact .null hle₁

end Parsing

/-- **Parsing ends on every text**: the recursion and the passes of the loops of the
blocks in it are at most three for every byte of the text, and six.  A pass of such a
loop that returns a statement, and so is followed by another, has taken a byte. -/
theorem parserParseFunction_terminates (text : Range) :
    (∀ fuel, parserParseFunction readToken (3 * text.length + 6 + fuel)
      (parserInit (readerOf text)) ≠ .error .outOfFuel) ∧
    ∀ (fuel : ℕ) (p p' : Parser Reader) (node : AstNode), p.hasPeek = false →
      parserParseStatement readToken fuel (parserPeekToken readToken p).2 = .ok (node, p') →
      node.isNull = false →
        p'.hasPeek = false ∧ bytesLeft p'.reader < bytesLeft p.reader := by
  refine ⟨fun fuel => ?_, fun fuel p p' node hpeek hok hnull => ?_⟩
  · apply (function_ends readToken_progresses _ _).ne_outOfFuel
    show 3 * text.length + 6 ≤ 3 * text.length + 6 + fuel
    omega
  · have hpass := pass_ends readToken_progresses
      (statement_ends readToken_progresses fuel).1 hpeek
    rw [hok] at hpass
    exact ⟨hpass.1.2 hnull, hpass.2 hnull⟩

/-- `a=a+1;}` : a pass that reads the assignment. -/
theorem parserParseFunction_terminates_assignment :
    let p := parserInit (readerOf [97, 61, 97, 43, 49, 59, 125])
    ∃ node p', parserParseStatement readToken 20 (parserPeekToken readToken p).2 =
      .ok (node, p') ∧ p'.hasPeek = false ∧ bytesLeft p'.reader < bytesLeft p.reader := by
  intro p
  have hpass : (match parserParseStatement readToken 20 (parserPeekToken readToken p).2 with
      | .ok (node, _) => node.isNull
      | .error _ => true) = false := by
    decide +kernel
  cases hparse : parserParseStatement readToken 20 (parserPeekToken readToken p).2 with
  | error e =>
      rw [hparse] at hpass
      cases hpass
  | ok r =>
      obtain ⟨node, p'⟩ := r
      rw [hparse] at hpass
      exact ⟨node, p', rfl,
        (parserParseFunction_terminates [97, 61, 97, 43, 49, 59, 125]).2 20 p p' node rfl hparse
          hpass⟩
