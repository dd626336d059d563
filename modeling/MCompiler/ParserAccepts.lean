/-
# Which functions the parser accepts

* `parserParseFunction_lists_iff` : a function of the grammar is returned with all its
  statements, and its blocks are stored inside their buffers, exactly if no block has more
  than 16 statements;
* `parserParseFunction_accepts_iff` : the parser accepts a stream exactly if it begins with
  a function of the grammar, and keeps to the buffers of its blocks, for the streams in which
  what it takes for a function is of the grammar and its blocks are small enough.
-/
import MCompiler.Buffer
import MCompiler.ParserReadings

open Runs

/-! ## The buffers of the blocks -/

/-- The buffer of a block, which first has room for eight pointers, holds `n` of them,
whatever they are. -/
def StatementsStored (n : ℕ) : Prop :=
  ∀ pointers : List UInt64, pointers.length = n →
    EveryStep dbufferStep (fun d op => op.Safe d) (dbufferInitSize (8 * 8))
      (pointers.map DbufferOp.pushPtr)

theorem statementsStored_iff (n : ℕ) : StatementsStored n ↔ n ≤ 16 :=
  pointersStored_iff (show 2 ≤ 8 by decide) (by decide)

mutual

/-- The statements of every block of a tree are stored inside the block's buffer. -/
def AstNode.BlocksStored : AstNode → Prop
  | .binaryExp _ left right _ => left.BlocksStored ∧ right.BlocksStored
  | .while condition block => condition.BlocksStored ∧ block.BlocksStored
  | .if condition ifBlock => condition.BlocksStored ∧ ifBlock.BlocksStored
  | .block childs => StatementsStored childs.length ∧ AllStored childs
  | .declaration _ assignment => assignment.BlocksStored
  | .function _ _ _ childs => AllStored childs
  | _ => True

/-- The same for a list of trees. -/
def AllStored : List AstNode → Prop
  | [] => True
  | node :: nodes => node.BlocksStored ∧ AllStored nodes

end

namespace Phrase

theorem signedNode_blocksStored {node : AstNode} (h : node.BlocksStored) (sign : Token) :
    (signedNode sign node).BlocksStored := by
  unfold signedNode
  split
  · exact h
  · cases node with
    | number num => trivial
    | «variable» varName wild => trivial
    | binaryExp op l r wild => exact h
    | _ => trivial

theorem chainNode_blocksStored {a : AstNode} {xs : List (Operator × AstNode)}
    (ha : a.BlocksStored) (hxs : ∀ x ∈ xs, x.2.BlocksStored) :
    (chainNode id (.leaf a) xs).BlocksStored := by
  by_cases hgap : HasGap id xs
  · rw [chainNode_of_gap hgap]
    trivial
  · obtain ⟨hfirst, hrest⟩ := OpTree.repair_sequence Operator.prec (.leaf a) xs
    rw [chainNode_of_not_gap hgap, build_iff (P := AstNode.BlocksStored) fun _ _ _ => Iff.rfl,
      OpTree.leaves_eq, hfirst, hrest]
    exact List.forall_mem_cons.mpr ⟨ha, List.forall_mem_map.mpr hxs⟩

/-- An expression has no blocks. -/
theorem operands_blocksStored (e : Phrase) :
    e.operands.1.BlocksStored ∧ ∀ x ∈ e.operands.2, x.2.BlocksStored := by
  induction e with
  | number digit digits => exact ⟨trivial, nofun⟩
  | ident name => exact ⟨trivial, nofun⟩
  | missing tok => exact ⟨trivial, nofun⟩
  | signed sign a ih => exact ⟨signedNode_blocksStored ih.1 sign, nofun⟩
  | group opening e closing ih =>
      refine ⟨?_, nofun⟩
      show (group opening e closing).operand.BlocksStored
      rw [operand_group]
      split
      · exact chainNode_blocksStored ih.1 ih.2
      · trivial
  | next e op a ihe iha =>
      exact ⟨ihe.1, List.forall_mem_append.mpr
        ⟨ihe.2, (List.forall_mem_singleton (p := fun x : Operator × AstNode =>
          x.2.BlocksStored)).mpr iha.1⟩⟩

theorem parsed_blocksStored (e : Phrase) : e.parsed.BlocksStored :=
  chainNode_blocksStored e.operands_blocksStored.1 e.operands_blocksStored.2

end Phrase

namespace StatementList

/-- **The blocks are stored in their buffers exactly if they have at most 16 statements.** -/
theorem allStored_nodes (ss : StatementList) : AllStored ss.nodes ↔ ss.BlocksWithin 16 := by
  have hassign : ∀ name (e : Phrase), (assignNode name e).BlocksStored :=
    fun name e => ⟨trivial, e.parsed_blocksStored⟩
  induction ss with
  | done => exact Iff.rfl
  | declaration dataType name assign e semicolon rest ih =>
      exact (and_iff_right (hassign name.range e)).trans ih
  | assignment name assign e semicolon rest ih => exact (and_iff_right (hassign name e)).trans ih
  | conditional keyword opening condition closing braces body rest ihbody ihrest =>
      have hblock : (if keyword.type = .KW_IF then AstNode.if condition.parsed (.block body.nodes)
          else .while condition.parsed (.block body.nodes)).BlocksStored ↔
            body.length ≤ 16 ∧ body.BlocksWithin 16 := by
        have hinner : (AstNode.block body.nodes).BlocksStored ↔
            body.length ≤ 16 ∧ body.BlocksWithin 16 := by
          rw [← nodes_length]
          exact and_congr (statementsStored_iff _) ihbody
        split <;> exact (and_iff_right condition.parsed_blocksStored).trans hinner
      exact (and_congr hblock ihrest).trans and_assoc
  | «return» keyword semicolon rest ih => exact (and_iff_right trivial).trans ih

theorem BlocksWithin.mono {m n : ℕ} (hle : m ≤ n) {ss : StatementList} (h : ss.BlocksWithin m) :
    ss.BlocksWithin n := by
  induction ss with
  | done => trivial
  | declaration dataType name assign e semicolon rest ih => exact ih h
  | assignment name assign e semicolon rest ih => exact ih h
  | conditional keyword opening condition closing braces body rest ihbody ihrest =>
      exact ⟨h.1.trans hle, ihbody h.2.1, ihrest h.2.2⟩
  | «return» keyword semicolon rest ih => exact ih h

end StatementList

namespace FunctionText

theorem ast_blocksStored (f : FunctionText) : f.ast.BlocksStored ↔ f.BlocksWithin 16 := by
  have hblock : (AstNode.block f.body.nodes).BlocksStored ↔ f.BlocksWithin 16 := by
    rw [BlocksWithin, ← statementsStored_iff, ← StatementList.allStored_nodes,
      ← StatementList.nodes_length]
    exact Iff.rfl
  exact (and_iff_left trivial).trans hblock

theorem BlocksWithin.mono {m n : ℕ} (hle : m ≤ n) {f : FunctionText} (h : f.BlocksWithin m) :
    f.BlocksWithin n := ⟨h.1.trans hle, h.2.mono hle⟩

end FunctionText

/-! ## Long blocks -/

section Parsing

variable {R : Type} (tokenNext : R → Token × R)

/-- `parser_parseFunction` returns the function `f` with all its statements, and every
block of it has been collected inside its buffer. -/
def ListsStatements (p : Parser R) (f : FunctionText) : Prop :=
  ∃ n, ∀ fuel, n ≤ fuel → ∃ p', parserParseFunction tokenNext fuel p = .ok (f.ast, p') ∧
    f.ast.BlocksStored

variable {tokenNext}

/-- **A function of the grammar is returned with all its statements exactly if** no block of
it has more than 16 of them. -/
theorem parserParseFunction_lists_iff {f : FunctionText} (h : f.InGrammar) {p : Parser R}
    {ts : List Token} {r' : R} (hp : Upcoming tokenNext p (f.tokens ++ ts) r') :
    ListsStatements tokenNext p f ↔ f.BlocksWithin 16 := by
  constructor
  · rintro ⟨n, hn⟩
    obtain ⟨p', -, hstored⟩ := hn n (Nat.le_refl n)
    exact f.ast_blocksStored.mp hstored
  · intro hwithin
    refine ⟨2 * f.tokens.length, fun fuel hfuel => ?_⟩
    have hzone : f.BlocksWithin 511 := hwithin.mono (by decide)
    obtain ⟨p', hparse, -⟩ := parserParseFunction_text h.1 hzone hfuel hp
    exact ⟨p', hparse, f.ast_blocksStored.mpr hwithin⟩

end Parsing

/-- `n` statements `return;`. -/
def StatementList.returns : ℕ → StatementList
  | 0 => .done
  | n + 1 => .return [] [] (returns n)

theorem StatementList.returns_spec (n : ℕ) : (returns n).length = n ∧ (returns n).Valid ∧
    (returns n).Strict ∧ (returns n).BlocksWithin 0 := by
  induction n with
  | zero => exact ⟨rfl, trivial, trivial, trivial⟩
  | succ n ih => exact ⟨congrArg (· + 1) ih.1, ih.2⟩

/-- The function `void f() { return; … return; }` with `n` statements. -/
def returnsFunction (n : ℕ) : FunctionText :=
  ⟨⟨.KW_VOID, []⟩, [102], [], [], some ([], []), .returns n⟩

theorem returnsFunction_inGrammar (n : ℕ) : (returnsFunction n).InGrammar := by
  obtain ⟨-, hvalid, hstrict, -⟩ := StatementList.returns_spec n
  exact ⟨⟨rfl, nofun, hvalid⟩, hstrict⟩

/-- Sixteen statements are listed. -/
theorem parserParseFunction_lists_sixteen :
    ListsStatements streamNext { reader := (returnsFunction 16).tokens ++ [] }
      (returnsFunction 16) := by
  obtain ⟨hlength, -, -, hwithin⟩ := StatementList.returns_spec 16
  exact (parserParseFunction_lists_iff (returnsFunction_inGrammar 16) (upcoming_stream _)).mpr
    ⟨hlength.le, hwithin.mono (Nat.zero_le 16)⟩

/-- 512 statements: the copy of the block is larger than the zone allocates. -/
theorem parserParseFunction_not_lists :
    ¬ ∀ f : FunctionText, f.InGrammar → ∃ fuel p',
      parserParseFunction streamNext fuel { reader := f.tokens } = .ok (f.ast, p') := by
  intro hclaim
  obtain ⟨fuel, p', hparse⟩ := hclaim _ (returnsFunction_inGrammar 512)
  obtain ⟨f, -, ⟨hlength, -⟩, hast, -⟩ := exists_functionText hparse rfl
  have hnodes : (StatementList.returns 512).nodes = f.body.nodes := by
    have hargs := (AstNode.function.inj hast).2.2.2
    exact AstNode.block.inj (List.cons.inj hargs).1
  have hcount := congrArg List.length hnodes
  rw [StatementList.nodes_length, StatementList.nodes_length,
    (StatementList.returns_spec 512).1] at hcount
  omega

/-! ## The grammar -/

section Parsing

variable {R : Type} (tokenNext : R → Token × R)

/-- The tokens of the function `f` are the next ones. -/
def BeginsWithFunction (p : Parser R) (f : FunctionText) : Prop :=
  ∃ ts r', Upcoming tokenNext p (f.tokens ++ ts) r'

/-- `parser_parseFunction` returns a function. -/
def Accepts (p : Parser R) : Prop :=
  ∃ n, ∀ fuel, n ≤ fuel → ∃ node p', parserParseFunction tokenNext fuel p = .ok (node, p') ∧
    node.isNull = false

/-- **The parser accepts its grammar**: it returns a function exactly if the tokens begin
with one of the grammar, and then the tree of this, with a node for each statement in the
order of the source. The statements of what it takes for a function, also of one outside the
grammar, are collected inside the buffers of their blocks. -/
def AcceptsGrammar (p : Parser R) : Prop :=
  (Accepts tokenNext p ↔ ∃ f, BeginsWithFunction tokenNext p f ∧ f.InGrammar) ∧
  (∀ f, BeginsWithFunction tokenNext p f → f.InGrammar → ∀ fuel node p',
    parserParseFunction tokenNext fuel p = .ok (node, p') → node.isNull = false →
      node = f.ast) ∧
  ∀ f : FunctionText, f.Valid → BeginsWithFunction tokenNext p f → f.ast.BlocksStored

variable {tokenNext}

/-- The tokens begin with one function at most. -/
theorem BeginsWithFunction.unique {p : Parser R} {f f' : FunctionText}
    (hp : BeginsWithFunction tokenNext p f) (hp' : BeginsWithFunction tokenNext p f')
    (h : f.Valid) (h' : f'.Valid) : f.ast = f'.ast ∧ (f.InGrammar ↔ f'.InGrammar) := by
  obtain ⟨ts, r, hts⟩ := hp
  obtain ⟨ts', r', hts'⟩ := hp'
  obtain ⟨vs, ws, heq⟩ := hts.exists_append hts'
  rw [List.append_assoc, List.append_assoc] at heq
  exact FunctionText.readings_eq h h' heq

/-- What is returned is the tree of the function that the tokens begin with. -/
theorem exists_beginsWithFunction {fuel : ℕ} {p p' : Parser R} {node : AstNode}
    (h : parserParseFunction tokenNext fuel p = .ok (node, p')) (hnode : node.isNull = false) :
    ∃ f : FunctionText, f.Valid ∧ BeginsWithFunction tokenNext p f ∧ node = f.ast := by
  obtain ⟨f, hvalid, -, hast, htakes⟩ := exists_functionText h hnode
  obtain ⟨r', hr'⟩ := upcoming_next tokenNext p'
  exact ⟨f, hvalid, ⟨_, r', htakes _ r' hr'⟩, hast⟩

theorem BeginsWithFunction.accepts {p : Parser R} {f : FunctionText}
    (hp : BeginsWithFunction tokenNext p f) (h : f.Valid) (hwithin : f.BlocksWithin 16) :
    Accepts tokenNext p := by
  obtain ⟨ts, r', hup⟩ := hp
  refine ⟨2 * f.tokens.length, fun fuel hfuel => ?_⟩
  have hzone : f.BlocksWithin 511 := hwithin.mono (by decide)
  obtain ⟨p', hparse, -⟩ := parserParseFunction_text h hzone hfuel hup
  exact ⟨f.ast, p', hparse, rfl⟩

theorem Accepts.exists_function {p : Parser R} (h : Accepts tokenNext p) :
    ∃ f : FunctionText, f.Valid ∧ BeginsWithFunction tokenNext p f := by
  obtain ⟨n, hn⟩ := h
  obtain ⟨node, p', hparse, hnode⟩ := hn n (Nat.le_refl n)
  obtain ⟨f, hvalid, hp, -⟩ := exists_beginsWithFunction hparse hnode
  exact ⟨f, hvalid, hp⟩

/-- **The parser accepts its grammar exactly if** the function that the tokens begin with,
if there is one, is of the grammar and its blocks have at most 16 statements each. -/
theorem parserParseFunction_accepts_iff (tokenNext : R → Token × R) (p : Parser R) :
    AcceptsGrammar tokenNext p ↔ ∀ f : FunctionText, f.Valid →
      BeginsWithFunction tokenNext p f → f.body.Strict ∧ f.BlocksWithin 16 := by
  constructor
  · rintro ⟨haccepts, -, hstored⟩ f hvalid hp
    have hwithin : f.BlocksWithin 16 := f.ast_blocksStored.mp (hstored f hvalid hp)
    obtain ⟨f', hp', hgrammar⟩ := haccepts.mp (hp.accepts hvalid hwithin)
    exact ⟨((hp.unique hp' hvalid hgrammar.1).2.mpr hgrammar).2, hwithin⟩
  · intro h
    refine ⟨⟨fun haccepts => ?_, ?_⟩, fun f hp hgrammar fuel node p' hparse hnode => ?_,
      fun f hvalid hp => f.ast_blocksStored.mpr (h f hvalid hp).2⟩
    · obtain ⟨f, hvalid, hp⟩ := haccepts.exists_function
      exact ⟨f, hp, hvalid, (h f hvalid hp).1⟩
    · rintro ⟨f, hp, hvalid, -⟩
      exact hp.accepts hvalid (h f hvalid hp).2
    · obtain ⟨f', hvalid', hp', rfl⟩ := exists_beginsWithFunction hparse hnode
      exact (hp'.unique hp hvalid' hgrammar.1).1

end Parsing

/-- `void f() { int64 5 = 3; }`: a number is taken for the name of a variable. -/
def numberDeclaration : FunctionText where
  dataType := ⟨.KW_VOID, []⟩
  name := [102]
  opening := []
  closing := []
  braces := some ([], [])
  body := .declaration ⟨.KW_INT64, []⟩ ⟨.NUMBER, [53]⟩ ⟨.ASSIGN, []⟩ (.number 51 []) [] .done

theorem parserParseFunction_not_accepts :
    ¬ ∀ p : Parser (List Token), AcceptsGrammar streamNext p := by
  intro hclaim
  have hvalid : numberDeclaration.Valid :=
    ⟨rfl, nofun, rfl, ⟨trivial, trivial, id⟩, trivial⟩
  have hp : BeginsWithFunction streamNext { reader := numberDeclaration.tokens ++ [] }
      numberDeclaration := ⟨[], [], upcoming_stream _⟩
  have haccepts := hp.accepts hvalid ⟨by decide, trivial⟩
  obtain ⟨f, hp', hgrammar⟩ := (hclaim _).1.mp haccepts
  obtain ⟨-, hname, -⟩ := (hp.unique hp' hvalid hgrammar.1).2.mpr hgrammar
  cases hname
