/-
# A function is read in one way

Two functions that begin one stream of tokens have the same tokens and the same syntax tree,
and if one of them is of the grammar the other is too.  For expressions this is the
determinism of `parser_parseExpression`; for statements the first token tells which one it
is.

* `StatementList.readings_eq` : statements, a number of them or up to a closing brace;
* `FunctionText.readings_eq` : functions.
-/
import MCompiler.ParserGrammar

open OpTree

/-! ## Streams -/

theorem reads_stream_iff {r ts us : List Token} {t : Token} :
    Reads streamNext r ts (t :: us) ↔ r = ts ++ t :: us := by
  induction ts generalizing r with
  | nil => exact Iff.rfl
  | cons u ts ih =>
      cases r with
      | nil =>
          refine iff_of_false ?_ (List.cons_ne_nil _ _).symm
          rintro ⟨r₁, hnext, hreads⟩
          cases hnext
          have hne : ts ++ t :: us ≠ [] := List.append_ne_nil_of_right_ne_nil _ (List.cons_ne_nil _ _)
          exact absurd (ih.mp hreads).symm hne
      | cons v r =>
          constructor
          · rintro ⟨r₁, hnext, hreads⟩
            cases hnext
            rw [ih.mp hreads, List.cons_append]
          · rintro h
            obtain ⟨rfl, rfl⟩ := List.cons.inj h
            exact ⟨_, rfl, ih.mpr rfl⟩

/-- The tokens up to a place in a stream are determined. -/
theorem upcoming_stream_unique {p : Parser (List Token)} {ts us vs : List Token} {t : Token}
    (h : Upcoming streamNext p ts (t :: vs)) (h' : Upcoming streamNext p us (t :: vs)) :
    ts = us := by
  unfold Upcoming at h h'
  by_cases hpeek : p.hasPeek
  · rw [if_pos hpeek] at h h'
    obtain ⟨ts', rfl, hts⟩ := h
    obtain ⟨us', rfl, hus⟩ := h'
    have heq := (reads_stream_iff.mp hts).symm.trans (reads_stream_iff.mp hus)
    rw [List.append_cancel_right heq]
  · rw [if_neg hpeek] at h h'
    exact List.append_cancel_right ((reads_stream_iff.mp h).symm.trans (reads_stream_iff.mp h'))

theorem Reads.exists_append {R : Type} {tokenNext : R → Token × R} {r r' r'' : R}
    {ts us : List Token} (h : Reads tokenNext r ts r') (h' : Reads tokenNext r us r'') :
    ∃ vs ws, ts ++ vs = us ++ ws := by
  induction ts generalizing r us with
  | nil => exact ⟨us, [], (List.append_nil us).symm⟩
  | cons t ts ih =>
      cases us with
      | nil => exact ⟨[], t :: ts, List.append_nil _⟩
      | cons u us =>
          obtain ⟨r₁, hnext, hreads⟩ := h
          obtain ⟨r₂, hnext', hreads'⟩ := h'
          obtain ⟨rfl, rfl⟩ := Prod.mk.inj (hnext.symm.trans hnext')
          obtain ⟨vs, ws, heq⟩ := ih hreads hreads'
          exact ⟨vs, ws, congrArg (t :: ·) heq⟩

/-- Of two lists of tokens that are the next ones, one goes on where the other ends. -/
theorem Upcoming.exists_append {R : Type} {tokenNext : R → Token × R} {p : Parser R}
    {ts us : List Token} {r r' : R} (h : Upcoming tokenNext p ts r)
    (h' : Upcoming tokenNext p us r') : ∃ vs ws, ts ++ vs = us ++ ws := by
  unfold Upcoming at h h'
  by_cases hpeek : p.hasPeek
  · rw [if_pos hpeek] at h h'
    obtain ⟨ts', rfl, hts⟩ := h
    obtain ⟨us', rfl, hus⟩ := h'
    obtain ⟨vs, ws, heq⟩ := hts.exists_append hus
    exact ⟨vs, ws, congrArg (p.peek :: ·) heq⟩
  · rw [if_neg hpeek] at h h'
    exact h.exists_append h'

/-! ## Expressions -/

namespace Phrase

/-- Two expressions before the end of an expression are read as one. -/
theorem IsExpression.readings_eq {e e' : Phrase} (h : e.IsExpression) (h' : e'.IsExpression)
    {stop stop' : Token} (hstop : getPresedence stop.type = -1)
    (hstop' : getPresedence stop'.type = -1) {ts ts' : List Token}
    (heq : e.tokens ++ stop :: ts = e'.tokens ++ stop' :: ts') :
    e.parsed = e'.parsed ∧ stop = stop' ∧ ts = ts' := by
  -- a token after all of them marks the place
  have hup : ∀ us : List Token, Upcoming streamNext { reader := us ++ [stop] } us [stop] :=
    fun us => reads_stream_iff.mpr rfl
  have hp := hup (e.tokens ++ stop :: ts)
  have hp' : Upcoming streamNext { reader := e.tokens ++ stop :: ts ++ [stop] }
      (e'.tokens ++ stop' :: ts') [stop] := heq ▸ hp
  have hle := le_max_left (2 * e.tokens.length + 1) (2 * e'.tokens.length + 1)
  have hle' := le_max_right (2 * e.tokens.length + 1) (2 * e'.tokens.length + 1)
  obtain ⟨p₁, hparse, hp₁, -⟩ := h.parses hle hstop hp
  obtain ⟨p₂, hparse', hp₂, -⟩ := h'.parses hle' hstop' hp'
  obtain ⟨hnode, rfl⟩ := Prod.mk.inj (Except.ok.inj (hparse.symm.trans hparse'))
  exact ⟨hnode, List.cons.inj (upcoming_stream_unique hp₁ hp₂)⟩

theorem IsExpression.complete_iff {e e' : Phrase} (h : e.IsExpression) (h' : e'.IsExpression)
    (heq : e.parsed = e'.parsed) : e.Complete ↔ e'.Complete := by
  rw [← h.1.parsed_withoutNull, ← h'.1.parsed_withoutNull, heq]

end Phrase

/-! ## Statements -/

/-- What the first token of a statement tells. -/
inductive StatementKind where
  | declaration | assignment | conditional | «return»
  deriving DecidableEq

/-- The statements that begin with a token of this type. -/
def TokenType.statementKind : TokenType → Option StatementKind
  | .KW_VOID => some .declaration
  | .KW_INT64 => some .declaration
  | .ID => some .assignment
  | .KW_IF => some .conditional
  | .KW_WHILE => some .conditional
  | .KW_RETURN => some .return
  | _ => none

/-- The tokens after a block begin with its closing brace. -/
def EndsBlock (ts : List Token) : Prop := ∃ closing us, ts = ⟨.CURLY_CLOSE, closing⟩ :: us

namespace StatementList

/-- The kind of the first statement. -/
def kind : StatementList → Option StatementKind
  | done => none
  | declaration _ _ _ _ _ _ => some .declaration
  | assignment _ _ _ _ _ => some .assignment
  | conditional _ _ _ _ _ _ _ => some .conditional
  | «return» _ _ _ => some .return

theorem Valid.exists_head {ss : StatementList} (h : ss.Valid) (hkind : ss.kind ≠ none) :
    ∃ t us, ss.tokens = t :: us ∧ t.type.statementKind = ss.kind := by
  cases ss with
  | done => exact absurd rfl hkind
  | declaration dataType name assign e semicolon rest =>
      refine ⟨dataType, _, rfl, ?_⟩
      have htype : dataType.type = .KW_VOID ∨ dataType.type = .KW_INT64 := by
        simpa [isDataType] using h.1
      rcases htype with htype | htype <;> rw [htype] <;> rfl
  | assignment name assign e semicolon rest => exact ⟨_, _, rfl, rfl⟩
  | conditional keyword opening condition closing braces body rest =>
      refine ⟨keyword, _, rfl, ?_⟩
      rcases h.1 with htype | htype <;> rw [htype] <;> rfl
  | «return» keyword semicolon rest => exact ⟨_, _, rfl, rfl⟩

theorem eq_done_of_kind {ss : StatementList} (h : ss.kind = none) : ss = done := by
  cases ss with
  | done => rfl
  | _ => cases h

/-- Statements are counted, or they go on up to a closing brace. -/
def SameEnd (ss ss' : StatementList) (ts ts' : List Token) : Prop :=
  ss.length = ss'.length ∨ EndsBlock ts ∧ EndsBlock ts'

theorem SameEnd.symm {ss ss' : StatementList} {ts ts' : List Token} (h : SameEnd ss ss' ts ts') :
    SameEnd ss' ss ts' ts := h.imp Eq.symm And.symm

/-- Where there is no statement in one reading there is none in the other. -/
theorem Valid.kind_eq_none {ss : StatementList} (h : ss.Valid) {ts ts' : List Token}
    (heq : ss.tokens ++ ts = ts') (hend : SameEnd ss done ts ts') : ss.kind = none := by
  rcases hend with hlength | ⟨-, closing, us, rfl⟩
  · rw [eq_done_of_length hlength]
    rfl
  · by_contra hkind
    obtain ⟨t, vs, htokens, hhead⟩ := h.exists_head hkind
    rw [htokens] at heq
    obtain ⟨rfl, -⟩ := List.cons.inj heq
    exact hkind hhead.symm

/-- The first token tells the kind of the statement. -/
theorem Valid.kind_eq {ss ss' : StatementList} (h : ss.Valid) (h' : ss'.Valid)
    {ts ts' : List Token} (heq : ss.tokens ++ ts = ss'.tokens ++ ts')
    (hend : SameEnd ss ss' ts ts') : ss.kind = ss'.kind := by
  by_cases hkind : ss.kind = none
  · obtain rfl := eq_done_of_kind hkind
    rw [hkind, h'.kind_eq_none heq.symm hend.symm]
  · by_cases hkind' : ss'.kind = none
    · obtain rfl := eq_done_of_kind hkind'
      rw [hkind', h.kind_eq_none heq hend]
    · obtain ⟨t, us, htokens, hhead⟩ := h.exists_head hkind
      obtain ⟨t', us', htokens', hhead'⟩ := h'.exists_head hkind'
      rw [htokens, htokens'] at heq
      obtain ⟨rfl, -⟩ := List.cons.inj heq
      rw [← hhead, ← hhead']

/-- Two readings of the same tokens: the trees are the same, and both are of the grammar or
none. -/
structure SameReading (ss ss' : StatementList) : Prop where
  nodes : ss.nodes = ss'.nodes
  strict : ss.Strict ↔ ss'.Strict

/-- Whatever comes after them, two readings of statements are the same. -/
def ReadInOneWay (ss : StatementList) : Prop :=
  ∀ (ss' : StatementList) (ts ts' : List Token), ss.Valid → ss'.Valid → SameEnd ss ss' ts ts' →
    ss.tokens ++ ts = ss'.tokens ++ ts' → SameReading ss ss' ∧ ts = ts'

/-- A block is read in one way if the statements in it are. -/
theorem ReadInOneWay.block {body body' : StatementList} (h : body.ReadInOneWay)
    (hvalid : body.Valid) (hvalid' : body'.Valid) {braces braces' : Braces}
    (hsingle : braces = none → body.length = 1) (hsingle' : braces' = none → body'.length = 1)
    {ts ts' : List Token}
    (heq : blockTokens braces body.tokens ++ ts = blockTokens braces' body'.tokens ++ ts') :
    SameReading body body' ∧ ts = ts' := by
  have hopen : ∀ {ss : StatementList} {opening : Range} {us vs : List Token}, ss.Valid →
      ss.length = 1 → ss.tokens ++ us ≠ ⟨.CURLY_OPEN, opening⟩ :: vs := by
    intro ss opening us vs hss hlength htokens
    have hkind : ss.kind ≠ none := fun hnone => by
      rw [eq_done_of_kind hnone] at hlength
      cases hlength
    obtain ⟨t, ws, hws, hhead⟩ := hss.exists_head hkind
    rw [hws] at htokens
    obtain ⟨rfl, -⟩ := List.cons.inj htokens
    exact hkind hhead.symm
  cases braces with
  | none =>
      cases braces' with
      | none =>
          have hlength : body.length = body'.length := (hsingle rfl).trans (hsingle' rfl).symm
          exact h body' ts ts' hvalid hvalid' (.inl hlength) heq
      | some braces' => exact absurd heq (hopen hvalid (hsingle rfl))
  | some braces =>
      cases braces' with
      | none => exact absurd heq.symm (hopen hvalid' (hsingle' rfl))
      | some braces' =>
          simp only [blockTokens, List.cons_append, List.append_assoc, List.cons.injEq,
            List.nil_append] at heq
          obtain ⟨hsame, hrest⟩ := h body' _ _ hvalid hvalid'
            (.inr ⟨⟨_, _, rfl⟩, ⟨_, _, rfl⟩⟩) heq.2
          exact ⟨hsame, (List.cons.inj hrest).2⟩

/-- **Statements are read in one way**, by induction on them. -/
theorem readings_eq (ss : StatementList) : ss.ReadInOneWay := by
  induction ss with
  | done =>
      intro ss' ts ts' hvalid hvalid' hend heq
      obtain rfl := eq_done_of_kind (hvalid.kind_eq hvalid' heq hend).symm
      exact ⟨⟨rfl, Iff.rfl⟩, heq⟩
  | declaration dataType name assign e semicolon rest ih =>
      intro ss' ts ts' hvalid hvalid' hend heq
      have hkind := hvalid.kind_eq hvalid' heq hend
      cases ss' with
      | declaration dataType' name' assign' e' semicolon' rest' =>
          simp only [tokens, List.cons_append, List.append_assoc, List.cons.injEq] at heq
          obtain ⟨rfl, rfl, rfl, heq⟩ := heq
          obtain ⟨hnode, -, heq⟩ := hvalid.2.1.readings_eq hvalid'.2.1 rfl rfl heq
          obtain ⟨hsame, hts⟩ := ih rest' ts ts' hvalid.2.2 hvalid'.2.2
            (hend.imp_left Nat.succ.inj) heq
          refine ⟨⟨?_, ?_⟩, hts⟩
          · rw [nodes, nodes, assignNode, assignNode, hnode, hsame.nodes]
          · rw [Strict, Strict, hvalid.2.1.complete_iff hvalid'.2.1 hnode, hsame.strict]
      | _ => cases hkind
  | assignment name assign e semicolon rest ih =>
      intro ss' ts ts' hvalid hvalid' hend heq
      have hkind := hvalid.kind_eq hvalid' heq hend
      cases ss' with
      | assignment name' assign' e' semicolon' rest' =>
          simp only [tokens, List.cons_append, List.append_assoc, List.cons.injEq,
            Token.mk.injEq, true_and] at heq
          obtain ⟨rfl, rfl, heq⟩ := heq
          obtain ⟨hnode, -, heq⟩ := hvalid.1.readings_eq hvalid'.1 rfl rfl heq
          obtain ⟨hsame, hts⟩ := ih rest' ts ts' hvalid.2 hvalid'.2
            (hend.imp_left Nat.succ.inj) heq
          refine ⟨⟨?_, ?_⟩, hts⟩
          · rw [nodes, nodes, assignNode, assignNode, hnode, hsame.nodes]
          · rw [Strict, Strict, hvalid.1.complete_iff hvalid'.1 hnode, hsame.strict]
      | _ => cases hkind
  | conditional keyword opening condition closing braces body rest ihbody ihrest =>
      intro ss' ts ts' hvalid hvalid' hend heq
      have hkind := hvalid.kind_eq hvalid' heq hend
      cases ss' with
      | conditional keyword' opening' condition' closing' braces' body' rest' =>
          obtain ⟨-, he, hsingle, hbody, hrest⟩ := hvalid
          obtain ⟨-, he', hsingle', hbody', hrest'⟩ := hvalid'
          simp only [tokens, List.cons_append, List.append_assoc, List.cons.injEq] at heq
          obtain ⟨rfl, -, heq⟩ := heq
          obtain ⟨hnode, -, heq⟩ := he.readings_eq he' rfl rfl heq
          obtain ⟨hblock, heq⟩ := ihbody.block hbody hbody' hsingle hsingle' heq
          obtain ⟨hsame, hts⟩ := ihrest rest' ts ts' hrest hrest'
            (hend.imp_left Nat.succ.inj) heq
          refine ⟨⟨?_, ?_⟩, hts⟩
          · rw [nodes, nodes, hnode, hblock.nodes, hsame.nodes]
          · rw [Strict, Strict, he.complete_iff he' hnode, hblock.strict, hsame.strict]
      | _ => cases hkind
  | «return» keyword semicolon rest ih =>
      intro ss' ts ts' hvalid hvalid' hend heq
      have hkind := hvalid.kind_eq hvalid' heq hend
      cases ss' with
      | «return» keyword' semicolon' rest' =>
          simp only [tokens, List.cons_append, List.cons.injEq] at heq
          obtain ⟨hsame, hts⟩ := ih rest' ts ts' hvalid hvalid'
            (hend.imp_left Nat.succ.inj) heq.2.2
          refine ⟨⟨?_, hsame.strict⟩, hts⟩
          rw [nodes, nodes, hsame.nodes]
      | _ => cases hkind

end StatementList

/-! ## Functions -/

/-- **Functions are read in one way.** -/
theorem FunctionText.readings_eq {f f' : FunctionText} (h : f.Valid) (h' : f'.Valid)
    {ts ts' : List Token} (heq : f.tokens ++ ts = f'.tokens ++ ts') :
    f.ast = f'.ast ∧ (f.InGrammar ↔ f'.InGrammar) := by
  simp only [tokens, List.cons_append, List.cons.injEq, Token.mk.injEq, true_and] at heq
  obtain ⟨htype, hname, -, -, heq⟩ := heq
  obtain ⟨hsame, -⟩ := f.body.readings_eq.block h.2.2 h'.2.2 h.2.1 h'.2.1 heq
  constructor
  · rw [ast, ast, htype, hname, hsame.nodes]
  · exact (and_iff_right h).trans (hsame.strict.trans (and_iff_right h').symm)
