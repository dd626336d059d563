/-
# The nodes of an expression in memory

`parser_parseBinary` makes a node for every operand and operator, and its rotations change
the links of nodes that are there.  Here the nodes have addresses: the functions of the
expression parser are those of `MCompiler.Parser`, with the nodes made so far next to the
parser.

* `expressions_refine` : the functions on nodes have the outcome of those on trees, and the
  nodes they return make up the tree;
* `linkedExpression_inOrder` : for operands and operators without signs, every node that is
  made is in the tree once, and from left to right the nodes are the operands and operators
  of the source.
-/
import Mathlib.Data.List.Nodup
import Mathlib.Data.List.Perm.Subperm
import MCompiler.ParserErrors
import MCompiler.ParserPrecedence

/-! ## Nodes -/

/-- A node of an expression, with the addresses of its children; `none` is the null
pointer, and `wild` is as in `AstNode`. -/
inductive NodeCell where
  | number (num : Int64)
  | «variable» (varName : Range) (wild : Bool)
  | binaryExp (op : TokenType) (left right : Option ℕ) (wild : Bool)

/-- The nodes made so far.  Every allocation from the zone is a new one, at the next
address. -/
abbrev Nodes := List NodeCell

namespace NodeCell

/-- The assignment to `left`. -/
def setLeft (left : Option ℕ) : NodeCell → NodeCell
  | binaryExp op _ right wild => binaryExp op left right wild
  | cell => cell

/-- The assignment to `right`. -/
def setRight (right : Option ℕ) : NodeCell → NodeCell
  | binaryExp op left _ wild => binaryExp op left right wild
  | cell => cell

/-- The word behind the type is multiplied by `-1`. -/
def negate : NodeCell → NodeCell
  | number num => number (num * -1)
  | «variable» varName wild => «variable» varName !wild
  | binaryExp op left right wild => binaryExp op left right !wild

end NodeCell

namespace Linked

/-- The sign of a prefix `-`. -/
def negateNode (nodes : Nodes) : Option ℕ → Except Stop Nodes
  | none => .error .nullDeref
  | some node =>
      match nodes[node]? with
      | none => .error .wildDeref
      | some _ => .ok (nodes.modify node NodeCell.negate)

/-- The end of `parser_parseBinary`, with the links as they are written. -/
def rotateResult (opPrec : ℤ) (nodes : Nodes) (result : ℕ) : Except Stop (ℕ × Nodes) :=
  match nodes[result]? with
  | some (.binaryExp op left _ false) =>
      match left with
      | none => .error .nullDeref
      | some leftSide =>
          match nodes[leftSide]? with
          | some (.binaryExp _ _ z _) =>
              if getPresedence op > opPrec then
                -- the left node becomes the root
                let nodes := nodes.modify leftSide (NodeCell.setRight (some result))
                .ok (leftSide, nodes.modify result (NodeCell.setLeft z))
              else .ok (result, nodes)
          | some _ => .ok (result, nodes)
          | none => .error .wildDeref
  | _ => .error .wildDeref

section Expressions

variable {R : Type} (tokenNext : R → Token × R)

mutual

/-- `parser_readAtomInternal`. -/
def parserReadAtomInternal :
    ℕ → Parser R → Nodes → Bool → Except Stop (Option ℕ × Parser R × Nodes)
  | 0, _, _, _ => .error .outOfFuel
  | fuel + 1, p, nodes, hasPrefix =>
      let (tok, p) := parserNext tokenNext p
      if !hasPrefix && (tok.type = .MINUS || tok.type = .PLUS) then do
        let (node, p, nodes) ← parserReadAtomInternal fuel p nodes true
        if tok.type ≠ .PLUS then
          let nodes ← negateNode nodes node
          .ok (node, p, nodes)
        else .ok (node, p, nodes)
      else if tok.type = .PARAN_OPEN then do
        let (node, p, nodes) ← parserParseExpression fuel p nodes
        let (tok, p) := parserNext tokenNext p
        if tok.type = .PARAN_CLOSE then .ok (node, p, nodes)
        else .ok (none,
          { p with error := some "expected ')' a the end of paran expression" }, nodes)
      else if tok.type = .NUMBER then
        match rangeParseInt tok.range with
        | none => .error .assertFailed
        | some num => .ok (some nodes.length, p, nodes ++ [.number (Int64.ofInt num)])
      else if tok.type = .ID then
        .ok (some nodes.length, p, nodes ++ [.variable tok.range false])
      else .ok (none, p, nodes)

/-- `parser_parseExpression`. -/
def parserParseExpression :
    ℕ → Parser R → Nodes → Except Stop (Option ℕ × Parser R × Nodes)
  | 0, _, _ => .error .outOfFuel
  | fuel + 1, p, nodes => do
      let (node, p, nodes) ← parserReadAtomInternal fuel p nodes false
      parserParseBinary fuel p nodes node

/-- `parser_parseBinary`. -/
def parserParseBinary :
    ℕ → Parser R → Nodes → Option ℕ → Except Stop (Option ℕ × Parser R × Nodes)
  | 0, _, _, _ => .error .outOfFuel
  | fuel + 1, p, nodes, left =>
      let (op, p) := parserPeekToken tokenNext p
      let opPrec := getPresedence op.type
      if opPrec = -1 then .ok (left, p, nodes)
      else do
        let (_, p) := parserNext tokenNext p
        let (node, p, nodes) ← parserReadAtomInternal fuel p nodes false
        if node.isNone then .ok (none, p, nodes)
        else do
          let exp := nodes.length
          let nodes := nodes ++ [.binaryExp op.type left node false]
          let (result, p, nodes) ← parserParseBinary fuel p nodes (some exp)
          match result with
          | none => .ok (none, p, nodes)
          | some result => do
              let (result, nodes) ← rotateResult opPrec nodes result
              .ok (some result, p, nodes)

end

end Expressions

end Linked

/-! ## Trees in memory -/

/-- At the address `root` stands the tree `tree`, and `addrs` are the addresses of its
nodes from left to right. -/
inductive TreeAt (nodes : Nodes) : Option ℕ → AstNode → List ℕ → Prop where
  | null : TreeAt nodes none .null []
  | number {a : ℕ} {num : Int64} (h : nodes[a]? = some (.number num)) :
      TreeAt nodes (some a) (.number num) [a]
  | «variable» {a : ℕ} {varName : Range} {wild : Bool}
      (h : nodes[a]? = some (.variable varName wild)) :
      TreeAt nodes (some a) (.variable varName wild) [a]
  | binaryExp {a : ℕ} {op : TokenType} {left right : Option ℕ} {wild : Bool} {l r : AstNode}
      {xs ys : List ℕ} (h : nodes[a]? = some (.binaryExp op left right wild))
      (hl : TreeAt nodes left l xs) (hr : TreeAt nodes right r ys) :
      TreeAt nodes (some a) (.binaryExp op l r wild) (xs ++ a :: ys)

namespace TreeAt

variable {nodes nodes' : Nodes} {root : Option ℕ} {tree : AstNode} {addrs : List ℕ}

/-- A tree stays where its nodes do. -/
theorem frame (h : TreeAt nodes root tree addrs)
    (hsame : ∀ a ∈ addrs, nodes'[a]? = nodes[a]?) : TreeAt nodes' root tree addrs := by
  induction h with
  | null => exact .null
  | number h => exact .number ((hsame _ (List.mem_singleton.mpr rfl)).trans h)
  | «variable» h => exact .variable ((hsame _ (List.mem_singleton.mpr rfl)).trans h)
  | binaryExp h _ _ ihl ihr =>
      refine .binaryExp ((hsame _ ?_).trans h) (ihl fun a ha => ?_) (ihr fun a ha => ?_)
      · exact List.mem_append_right _ List.mem_cons_self
      · exact hsame a (List.mem_append_left _ ha)
      · exact hsame a (List.mem_append_right _ (List.mem_cons_of_mem _ ha))

theorem isNull_eq (h : TreeAt nodes root tree addrs) : tree.isNull = root.isNone := by
  cases h <;> rfl

/-- The addresses are those of nodes. -/
theorem lt_length (h : TreeAt nodes root tree addrs) : ∀ a ∈ addrs, a < nodes.length := by
  have hlt : ∀ {a : ℕ} {cell : NodeCell}, nodes[a]? = some cell → a < nodes.length :=
    fun h => (List.getElem?_eq_some_iff.mp h).1
  induction h with
  | null => exact fun a ha => absurd ha List.not_mem_nil
  | number h =>
      intro a ha
      rw [List.mem_singleton.mp ha]
      exact hlt h
  | «variable» h =>
      intro a ha
      rw [List.mem_singleton.mp ha]
      exact hlt h
  | binaryExp h _ _ ihl ihr =>
      intro a ha
      rcases List.mem_append.mp ha with ha | ha
      · exact ihl a ha
      · rcases List.mem_cons.mp ha with rfl | ha
        · exact hlt h
        · exact ihr a ha

end TreeAt

/-- The tree at `root` is made of nodes from `base` on, each of them once; if it is without
null pointers it has all of them. -/
structure Owns (nodes : Nodes) (base : ℕ) (root : Option ℕ) (tree : AstNode) (addrs : List ℕ) :
    Prop where
  treeAt : TreeAt nodes root tree addrs
  le_length : base ≤ nodes.length
  nodup : addrs.Nodup
  base_le : ∀ a ∈ addrs, base ≤ a
  all : tree.WithoutNull → base + addrs.length = nodes.length

/-- From `nodes` to `nodes'` nodes are added and changed from `base` on, and they hold the
tree at `root`. -/
structure Built (base : ℕ) (nodes nodes' : Nodes) (root : Option ℕ) (tree : AstNode) : Prop where
  grows : nodes.length ≤ nodes'.length
  frame : ∀ a < base, nodes'[a]? = nodes[a]?
  owns : ∃ addrs, Owns nodes' base root tree addrs

/-! ## Making and changing nodes -/

section Building

variable {base : ℕ} {nodes nodes' : Nodes} {root : Option ℕ} {tree : AstNode} {addrs : List ℕ}

theorem getElem?_modify_self {a : ℕ} {cell : NodeCell} (h : nodes[a]? = some cell)
    (f : NodeCell → NodeCell) : (nodes.modify a f)[a]? = some (f cell) := by
  rw [List.getElem?_modify_eq, h]
  rfl

theorem Owns.null (h : base ≤ nodes.length) : Owns nodes base none .null [] :=
  ⟨.null, h, List.nodup_nil, fun _ ha => absurd ha List.not_mem_nil, False.elim⟩

/-- A new operand. -/
theorem built_operand {cell : NodeCell} (nodes : Nodes)
    (h : TreeAt (nodes ++ [cell]) (some nodes.length) tree [nodes.length]) :
    Built nodes.length nodes (nodes ++ [cell]) (some nodes.length) tree where
  grows := by
    rw [List.length_append]
    exact Nat.le_add_right _ _
  frame a ha := List.getElem?_append_left ha
  owns := by
    refine ⟨[nodes.length], h, ?_, List.nodup_singleton _, fun a ha => ?_, fun _ => ?_⟩
    · rw [List.length_append]
      exact Nat.le_add_right _ _
    · exact (List.mem_singleton.mp ha).ge
    · rw [List.length_append, List.length_singleton, List.length_singleton]

/-- A new operator over two trees, the right one made after the left one. -/
theorem Owns.operator {left right : Option ℕ} {l r : AstNode} {xs : List ℕ}
    (hl : Owns nodes base left l xs) (hr : Built nodes.length nodes nodes' right r)
    (op : TokenType) :
    ∃ addrs, Owns (nodes' ++ [.binaryExp op left right false]) base (some nodes'.length)
      (.binaryExp op l r false) addrs := by
  obtain ⟨ys, hys⟩ := hr.owns
  have hnew : (nodes' ++ [NodeCell.binaryExp op left right false])[nodes'.length]? =
      some (.binaryExp op left right false) := List.getElem?_concat_length
  have hxs : ∀ a ∈ xs, a < nodes.length := hl.treeAt.lt_length
  have hys' : ∀ a ∈ ys, a < nodes'.length := hys.treeAt.lt_length
  have hgrows := hr.grows
  have hbase := hl.le_length
  refine ⟨xs ++ nodes'.length :: ys, .binaryExp hnew ?_ ?_, ?_, ?_, ?_, ?_⟩
  · refine hl.treeAt.frame fun a ha => ?_
    rw [List.getElem?_append_left (lt_of_lt_of_le (hxs a ha) hgrows), hr.frame a (hxs a ha)]
  · exact hys.treeAt.frame fun a ha => List.getElem?_append_left (hys' a ha)
  · rw [List.length_append]
    omega
  · rw [List.nodup_append]
    refine ⟨hl.nodup, List.nodup_cons.mpr ⟨fun h => lt_irrefl _ (hys' _ h), hys.nodup⟩, ?_⟩
    intro a ha b hb
    have hlt := hxs a ha
    rcases List.mem_cons.mp hb with rfl | hb
    · omega
    · have hle := hys.base_le b hb
      omega
  · intro a ha
    rcases List.mem_append.mp ha with ha | ha
    · exact hl.base_le a ha
    · rcases List.mem_cons.mp ha with rfl | ha
      · exact le_trans hbase hgrows
      · exact le_trans hbase (hys.base_le a ha)
  · rintro ⟨hwl, hwr⟩
    have hleft := hl.all hwl
    have hright := hys.all hwr
    rw [List.length_append, List.length_append, List.length_cons, List.length_singleton]
    omega

/-- From `nodes` to `nodes'` only nodes from `base` on have been changed, and there the tree
`tree` stands at `root` now. -/
structure Changed (base : ℕ) (nodes nodes' : Nodes) (root : Option ℕ) (tree : AstNode) : Prop where
  length : nodes'.length = nodes.length
  frame : ∀ a < base, nodes'[a]? = nodes[a]?
  owns : ∃ addrs, Owns nodes' base root tree addrs

theorem Owns.unchanged (h : Owns nodes base root tree addrs) :
    Changed base nodes nodes root tree := ⟨rfl, fun _ _ => rfl, addrs, h⟩

/-- The sign is written to the node of the operand. -/
theorem negateNode_refines (h : Owns nodes base root tree addrs) :
    SameOutcome (fun tree' nodes' => Changed base nodes nodes' root tree') (negateNode tree)
      (Linked.negateNode nodes root) := by
  have hlength : ∀ a, (nodes.modify a NodeCell.negate).length = nodes.length :=
    fun a => List.length_modify _ _ _
  have hother : ∀ {a b : ℕ}, a ≠ b → (nodes.modify a NodeCell.negate)[b]? = nodes[b]? :=
    fun hne => List.getElem?_modify_ne _ _ hne
  obtain ⟨htree, hle, hnodup, hbase, hall⟩ := h
  cases htree with
  | null => exact .error _
  | @number a num hcell =>
      have hframe : ∀ b < base, (nodes.modify a NodeCell.negate)[b]? = nodes[b]? :=
        fun b hb => hother (lt_of_lt_of_le hb (hbase a (List.mem_singleton.mpr rfl))).ne'
      rw [Linked.negateNode]
      simp only [hcell]
      refine .ok ⟨hlength a, hframe, [a], .number (getElem?_modify_self hcell _), by rwa [hlength],
        hnodup, hbase, fun _ => ?_⟩
      rw [hlength]
      exact hall trivial
  | @«variable» a varName wild hcell =>
      have hframe : ∀ b < base, (nodes.modify a NodeCell.negate)[b]? = nodes[b]? :=
        fun b hb => hother (lt_of_lt_of_le hb (hbase a (List.mem_singleton.mpr rfl))).ne'
      rw [Linked.negateNode]
      simp only [hcell]
      exact .ok ⟨hlength a, hframe, [a], .variable (getElem?_modify_self hcell _),
        by rwa [hlength], hnodup, hbase, by rwa [hlength]⟩
  | @binaryExp a op left right wild l r xs ys hcell hl hr =>
      have ha : a ∈ xs ++ a :: ys := List.mem_append_right _ List.mem_cons_self
      have hframe : ∀ b < base, (nodes.modify a NodeCell.negate)[b]? = nodes[b]? :=
        fun b hb => hother (lt_of_lt_of_le hb (hbase a ha)).ne'
      obtain ⟨hxs, hys⟩ := not_or.mp (mt List.mem_append.mpr (List.nodup_middle.mp hnodup).notMem)
      have hl' : TreeAt (nodes.modify a NodeCell.negate) left l xs :=
        hl.frame fun b hb => hother fun heq => hxs (heq ▸ hb)
      have hr' : TreeAt (nodes.modify a NodeCell.negate) right r ys :=
        hr.frame fun b hb => hother fun heq => hys (heq ▸ hb)
      rw [Linked.negateNode]
      simp only [hcell]
      exact .ok ⟨hlength a, hframe, _, .binaryExp (getElem?_modify_self hcell _) hl' hr',
        by rwa [hlength], hnodup, hbase, by rwa [hlength]⟩

/-- **The rotation**: the nodes stay in their order, only links change. -/
theorem Owns.rotate {result leftSide : ℕ} {op leftOp : TokenType} {left z right : Option ℕ}
    {l m r : AstNode} {wild : Bool} {xs zs ys : List ℕ}
    (h : Owns nodes base (some result)
      (.binaryExp op (.binaryExp leftOp l m wild) r false) ((xs ++ leftSide :: zs) ++ result :: ys))
    (hresult : nodes[result]? = some (.binaryExp op (some leftSide) right false))
    (hleftSide : nodes[leftSide]? = some (.binaryExp leftOp left z wild))
    (hl : TreeAt nodes left l xs) (hm : TreeAt nodes z m zs) (hr : TreeAt nodes right r ys) :
    Changed base nodes
      ((nodes.modify leftSide (NodeCell.setRight (some result))).modify result (NodeCell.setLeft z))
      (some leftSide) (.binaryExp leftOp l (.binaryExp op m r false) wild) := by
  obtain ⟨-, hle, hnodup, hbase, hall⟩ := h
  have hmem : ∀ a, a ∈ (xs ++ leftSide :: zs) ++ result :: ys ↔
      a ∈ xs ∨ a = leftSide ∨ a ∈ zs ∨ a = result ∨ a ∈ ys := by
    intro a
    simp only [List.mem_append, List.mem_cons, or_assoc]
  have hperm : xs ++ leftSide :: (zs ++ result :: ys) = (xs ++ leftSide :: zs) ++ result :: ys := by
    rw [List.append_assoc, List.cons_append]
  -- the two nodes that change are different, and neither is in a subtree
  have hdisjoint := hnodup
  simp only [List.nodup_append, List.nodup_cons, List.mem_append, List.mem_cons] at hdisjoint
  have hne : leftSide ≠ result := by grind
  obtain ⟨relinked, hrelinked⟩ : ∃ relinked, relinked = (nodes.modify leftSide
    (NodeCell.setRight (some result))).modify result (NodeCell.setLeft z) := ⟨_, rfl⟩
  have hother : ∀ a, a ≠ leftSide → a ≠ result → relinked[a]? = nodes[a]? := by
    intro a hleft hres
    rw [hrelinked, List.getElem?_modify_ne _ _ hres.symm, List.getElem?_modify_ne _ _ hleft.symm]
  have hlength : relinked.length = nodes.length := by
    rw [hrelinked, List.length_modify, List.length_modify]
  have hleftNew : relinked[leftSide]? = some (.binaryExp leftOp left (some result) wild) := by
    rw [hrelinked, List.getElem?_modify_ne _ _ hne.symm]
    exact getElem?_modify_self hleftSide _
  have hresultNew : relinked[result]? = some (.binaryExp op z right false) := by
    have hsame : (nodes.modify leftSide (NodeCell.setRight (some result)))[result]? =
        some (.binaryExp op (some leftSide) right false) := by
      rw [List.getElem?_modify_ne _ _ hne]
      exact hresult
    rw [hrelinked]
    exact getElem?_modify_self hsame _
  rw [← hrelinked]
  refine ⟨hlength, fun a ha => ?_, xs ++ leftSide :: (zs ++ result :: ys),
    .binaryExp hleftNew ?_ (.binaryExp hresultNew ?_ ?_), by rwa [hlength], ?_, ?_, ?_⟩
  · have hleft := hbase leftSide ((hmem _).mpr (.inr (.inl rfl)))
    have hres := hbase result ((hmem _).mpr (.inr (.inr (.inr (.inl rfl)))))
    exact hother a (by omega) (by omega)
  · exact hl.frame fun a ha => hother a (by grind) (by grind)
  · exact hm.frame fun a ha => hother a (by grind) (by grind)
  · exact hr.frame fun a ha => hother a (by grind) (by grind)
  · rwa [hperm]
  · rwa [hperm]
  · rintro ⟨hwl, hwm, hwr⟩
    rw [hlength, hperm]
    exact hall ⟨⟨hwl, hwm⟩, hwr⟩

/-- The end of `parser_parseBinary`. -/
theorem rotateResult_refines {result : ℕ} (h : Owns nodes base (some result) tree addrs)
    (opPrec : ℤ) :
    SameOutcome (fun tree' x => Changed base nodes x.2 (some x.1) tree')
      (rotateResult opPrec tree) (Linked.rotateResult opPrec nodes result) := by
  have hstays := h.unchanged
  have htree := h.treeAt
  cases htree with
  | number hcell =>
      rw [Linked.rotateResult]
      simp only [hcell]
      exact .error _
  | «variable» hcell =>
      rw [Linked.rotateResult]
      simp only [hcell]
      exact .error _
  | @binaryExp _ op left right wild l r xs ys hcell hl hr =>
      rw [Linked.rotateResult]
      simp only [hcell]
      cases wild with
      | true => exact .error _
      | false =>
          cases hl with
          | null => exact .error _
          | number hleft =>
              simp only [hleft]
              exact .ok hstays
          | «variable» hleft =>
              simp only [hleft]
              exact .ok hstays
          | @binaryExp leftSide leftOp leftLeft z leftWild l m xs zs hleft hl hm =>
              simp only [hleft]
              unfold rotateResult
              by_cases hprec : getPresedence op > opPrec
              · rw [if_pos hprec]
                simp only [if_pos hprec]
                exact .ok (h.rotate hcell hleft hl hm hr)
              · rw [if_neg hprec]
                simp only [if_neg hprec]
                exact .ok hstays

end Building

/-! ## The functions on nodes and on trees -/

section Refining

variable {R : Type} {tokenNext : R → Token × R}

/-- The same parser, and in memory the tree, made from `base` on. -/
def BuildsSame (base : ℕ) (nodes : Nodes) (x : AstNode × Parser R)
    (y : Option ℕ × Parser R × Nodes) : Prop :=
  y.2.1 = x.2 ∧ Built base nodes y.2.2 y.1 x.1

/-- With this fuel, operands are read alike. -/
def AtomRefines (tokenNext : R → Token × R) (fuel : ℕ) : Prop :=
  ∀ (p : Parser R) (nodes : Nodes) (hasPrefix : Bool), SameOutcome (BuildsSame nodes.length nodes)
    (parserReadAtomInternal tokenNext fuel p hasPrefix)
    (Linked.parserReadAtomInternal tokenNext fuel p nodes hasPrefix)

/-- With this fuel, expressions are read alike. -/
def ExpressionRefines (tokenNext : R → Token × R) (fuel : ℕ) : Prop :=
  ∀ (p : Parser R) (nodes : Nodes), SameOutcome (BuildsSame nodes.length nodes)
    (parserParseExpression tokenNext fuel p)
    (Linked.parserParseExpression tokenNext fuel p nodes)

/-- With this fuel, operators and operands after a tree are read alike. -/
def BinaryRefines (tokenNext : R → Token × R) (fuel : ℕ) : Prop :=
  ∀ (p : Parser R) (nodes : Nodes) (base : ℕ) (left : Option ℕ) (tree : AstNode)
    (addrs : List ℕ), Owns nodes base left tree addrs →
    SameOutcome (BuildsSame base nodes) (parserParseBinary tokenNext fuel p tree)
      (Linked.parserParseBinary tokenNext fuel p nodes left)

/-- Nothing is returned. -/
theorem built_null {base : ℕ} {nodes nodes' : Nodes} {root : Option ℕ} {tree : AstNode}
    (h : Built base nodes nodes' root tree) : Built base nodes nodes' none .null := by
  obtain ⟨hgrows, hframe, addrs, howns⟩ := h
  exact ⟨hgrows, hframe, [], .null howns.le_length⟩

theorem built_refl {base : ℕ} {nodes : Nodes} {root : Option ℕ} {tree : AstNode}
    {addrs : List ℕ} (h : Owns nodes base root tree addrs) : Built base nodes nodes root tree :=
  ⟨Nat.le_refl _, fun _ _ => rfl, addrs, h⟩

theorem Built.change {base : ℕ} {nodes nodes₁ nodes₂ : Nodes} {root root' : Option ℕ}
    {tree tree' : AstNode} (h : Built base nodes nodes₁ root tree)
    (h' : Changed base nodes₁ nodes₂ root' tree') : Built base nodes nodes₂ root' tree' where
  grows := h'.length ▸ h.grows
  frame a ha := (h'.frame a ha).trans (h.frame a ha)
  owns := h'.owns

theorem readAtom_refines {fuel : ℕ} (hatom : AtomRefines tokenNext fuel)
    (hexp : ExpressionRefines tokenNext fuel) : AtomRefines tokenNext (fuel + 1) := by
  intro p nodes hasPrefix
  rw [parserReadAtomInternal, Linked.parserReadAtomInternal]
  generalize parserNext tokenNext p = result
  obtain ⟨tok, p₁⟩ := result
  dsimp only
  by_cases hsign : (!hasPrefix && (tok.type = .MINUS || tok.type = .PLUS)) = true
  · rw [if_pos hsign, if_pos hsign]
    refine (hatom p₁ nodes true).bind ?_
    rintro ⟨node, _⟩ ⟨root, p₂, nodes₂⟩ ⟨rfl, hbuilt⟩
    dsimp only
    by_cases hplus : tok.type = .PLUS
    · rw [if_neg (not_not_intro hplus), if_neg (not_not_intro hplus)]
      exact .ok ⟨rfl, hbuilt⟩
    · rw [if_pos hplus, if_pos hplus]
      obtain ⟨addrs, howns⟩ := hbuilt.owns
      refine (negateNode_refines howns).bind ?_
      intro node' nodes₃ hchanged
      exact .ok ⟨rfl, hbuilt.change hchanged⟩
  · rw [if_neg hsign, if_neg hsign]
    by_cases hopen : tok.type = .PARAN_OPEN
    · rw [if_pos hopen, if_pos hopen]
      refine (hexp p₁ nodes).bind ?_
      rintro ⟨node, _⟩ ⟨root, p₂, nodes₂⟩ ⟨rfl, hbuilt⟩
      dsimp only
      by_cases hclosing : (parserNext tokenNext p₂).1.type = .PARAN_CLOSE
      · rw [if_pos hclosing, if_pos hclosing]
        exact .ok ⟨rfl, hbuilt⟩
      · rw [if_neg hclosing, if_neg hclosing]
        exact .ok ⟨rfl, built_null hbuilt⟩
    · rw [if_neg hopen, if_neg hopen]
      by_cases hnumber : tok.type = .NUMBER
      · rw [if_pos hnumber, if_pos hnumber]
        cases rangeParseInt tok.range with
        | none => exact .error _
        | some num => exact .ok ⟨rfl, built_operand nodes (.number List.getElem?_concat_length)⟩
      · rw [if_neg hnumber, if_neg hnumber]
        by_cases hid : tok.type = .ID
        · rw [if_pos hid, if_pos hid]
          exact .ok ⟨rfl, built_operand nodes (.variable List.getElem?_concat_length)⟩
        · rw [if_neg hid, if_neg hid]
          exact .ok ⟨rfl, built_refl (.null (Nat.le_refl _))⟩

theorem parseBinary_refines {fuel : ℕ} (hatom : AtomRefines tokenNext fuel)
    (hbin : BinaryRefines tokenNext fuel) : BinaryRefines tokenNext (fuel + 1) := by
  intro p nodes base left tree addrs howns
  rw [parserParseBinary, Linked.parserParseBinary]
  generalize parserPeekToken tokenNext p = result
  obtain ⟨op, p₁⟩ := result
  dsimp only
  by_cases hop : getPresedence op.type = -1
  · rw [if_pos hop, if_pos hop]
    exact .ok ⟨rfl, built_refl howns⟩
  · rw [if_neg hop, if_neg hop]
    refine (hatom (parserNext tokenNext p₁).2 nodes false).bind ?_
    rintro ⟨node, _⟩ ⟨root, p₂, nodes₂⟩ ⟨rfl, hbuilt⟩
    obtain ⟨addrs', howns'⟩ := hbuilt.owns
    have hframe : ∀ a < base, nodes₂[a]? = nodes[a]? :=
      fun a ha => hbuilt.frame a (lt_of_lt_of_le ha howns.le_length)
    dsimp only
    rw [howns'.treeAt.isNull_eq]
    by_cases hnull : root.isNone = true
    · rw [if_pos hnull, if_pos hnull]
      exact .ok ⟨rfl, hbuilt.grows, hframe, [],
        .null (le_trans howns.le_length hbuilt.grows)⟩
    · rw [if_neg hnull, if_neg hnull]
      obtain ⟨exp, hexp⟩ := howns.operator hbuilt op.type
      refine (hbin p₂ _ base _ _ _ hexp).bind ?_
      rintro ⟨result, _⟩ ⟨root', p₃, nodes₃⟩ ⟨rfl, hbuilt'⟩
      obtain ⟨addrs₃, howns₃⟩ := hbuilt'.owns
      have hall : Built base nodes nodes₃ root' result := by
        refine ⟨le_trans hbuilt.grows (le_trans ?_ hbuilt'.grows), fun a ha => ?_, hbuilt'.owns⟩
        · rw [List.length_append]
          exact Nat.le_add_right _ _
        · have hlt := lt_of_lt_of_le ha (le_trans howns.le_length hbuilt.grows)
          rw [hbuilt'.frame a ha, List.getElem?_append_left hlt, hframe a ha]
      dsimp only
      rw [howns₃.treeAt.isNull_eq]
      cases root' with
      | none => exact .ok ⟨rfl, built_null hall⟩
      | some result =>
          refine (rotateResult_refines howns₃ _).bind ?_
          rintro tree' ⟨result', nodes₄⟩ hchanged
          exact .ok ⟨rfl, hall.change hchanged⟩

/-- **The functions on nodes refine those on trees**, by induction on the fuel. -/
theorem expressions_refine (fuel : ℕ) : AtomRefines tokenNext fuel ∧
    ExpressionRefines tokenNext fuel ∧ BinaryRefines tokenNext fuel := by
  induction fuel with
  | zero =>
      refine ⟨fun p nodes hasPrefix => ?_, fun p nodes => ?_,
        fun p nodes base left tree addrs _ => ?_⟩
      · rw [parserReadAtomInternal, Linked.parserReadAtomInternal]
        exact .error _
      · rw [parserParseExpression, Linked.parserParseExpression]
        exact .error _
      · rw [parserParseBinary, Linked.parserParseBinary]
        exact .error _
  | succ fuel ih =>
      obtain ⟨hatom, hexp, hbin⟩ := ih
      refine ⟨readAtom_refines hatom hexp, fun p nodes => ?_, parseBinary_refines hatom hbin⟩
      rw [parserParseExpression, Linked.parserParseExpression]
      refine (hatom p nodes false).bind ?_
      rintro ⟨node, _⟩ ⟨root, p₁, nodes₁⟩ ⟨rfl, hbuilt⟩
      obtain ⟨addrs, howns⟩ := hbuilt.owns
      refine (hbin p₁ nodes₁ nodes.length root node addrs howns).mono ?_
      rintro ⟨tree, _⟩ ⟨root', p₂, nodes₂⟩ ⟨rfl, hbuilt'⟩
      exact ⟨rfl, le_trans hbuilt.grows hbuilt'.grows,
        fun a ha => (hbuilt'.frame a ha).trans (hbuilt.frame a ha), hbuilt'.owns⟩

end Refining

/-! ## Reading from left to right -/

/-- An operand or an operator. -/
inductive ExprSymbol where
  | number (num : Int64)
  | ident (name : Range)
  | operator (op : TokenType)

/-- What a token stands for; parentheses stand for nothing. -/
def tokenSymbol (tok : Token) : Option ExprSymbol :=
  match tok.type with
  | .NUMBER => some (.number (Int64.ofInt ((rangeParseInt tok.range).getD 0)))
  | .ID => some (.ident tok.range)
  | type => if getPresedence type = -1 then none else some (.operator type)

/-- What a node stands for. -/
def NodeCell.symbol : NodeCell → ExprSymbol
  | number num => .number num
  | «variable» varName _ => .ident varName
  | binaryExp op _ _ _ => .operator op

/-- The operands and operators of a tree from left to right. -/
def AstNode.inOrder : AstNode → List ExprSymbol
  | .number num => [.number num]
  | .variable varName _ => [.ident varName]
  | .binaryExp op left right _ => left.inOrder ++ .operator op :: right.inOrder
  | _ => []

theorem TreeAt.map_symbol {nodes : Nodes} {root : Option ℕ} {tree : AstNode} {addrs : List ℕ}
    (h : TreeAt nodes root tree addrs) :
    addrs.map (fun a => (nodes[a]?).map NodeCell.symbol) = tree.inOrder.map some := by
  induction h with
  | null => rfl
  | number h =>
      rw [List.map_singleton, h]
      rfl
  | «variable» h =>
      rw [List.map_singleton, h]
      rfl
  | binaryExp h _ _ ihl ihr =>
      rw [List.map_append, List.map_cons, ihl, ihr, h, AstNode.inOrder, List.map_append,
        List.map_cons]
      rfl

theorem tokenSymbol_operator (op : Operator) : tokenSymbol op.1 = some (.operator op.1.type) := by
  obtain ⟨⟨type, text⟩, h⟩ := op
  cases type <;> first | exact absurd rfl h | rfl

/-- The operands and operators of a tree are those at its leaves and nodes. -/
theorem inOrder_build {A : Type} {node : A → AstNode} (t : OpTree Operator A) :
    (t.build binaryNode node).inOrder = (node t.first).inOrder ++
      t.rest.flatMap fun x => .operator x.1.1.type :: (node x.2).inOrder := by
  induction t with
  | leaf a => exact (List.append_nil _).symm
  | node op l r ihl ihr =>
      show (l.build binaryNode node).inOrder ++
        .operator op.1.type :: (r.build binaryNode node).inOrder = _
      rw [ihl, ihr, OpTree.rest, List.flatMap_append, List.flatMap_cons, List.append_assoc]
      rfl

namespace Expr

/-- **The tree is read as the source is**, by induction on the expression. -/
theorem inOrder_operands (e : Expr) :
    e.operands.1.inOrder ++
        (e.operands.2.flatMap fun x => .operator x.1.1.type :: x.2.inOrder) =
      e.tokens.filterMap tokenSymbol := by
  induction e with
  | number digit digits => rfl
  | ident name => rfl
  | paren opening closing e ih =>
      obtain ⟨hfirst, hrest⟩ :=
        OpTree.repair_sequence Operator.prec (.leaf e.operands.1) e.operands.2
      rw [operands, inOrder_build, hfirst, hrest, tokens, List.filterMap_cons_none rfl,
        List.filterMap_append, ← ih]
      simp [OpTree.first, OpTree.rest, tokenSymbol, getPresedence]
  | binary op l r ihl ihr =>
      rw [operands, tokens, List.filterMap_append,
        List.filterMap_cons_some (tokenSymbol_operator op), ← ihl, ← ihr]
      simp

theorem inOrder_parsed (e : Expr) : e.parsed.inOrder = e.tokens.filterMap tokenSymbol := by
  obtain ⟨hfirst, hrest⟩ :=
    OpTree.repair_sequence Operator.prec (.leaf e.operands.1) e.operands.2
  rw [parsed, inOrder_build, hfirst, hrest]
  exact e.inOrder_operands

theorem operands_withoutNull (e : Expr) :
    e.operands.1.WithoutNull ∧ ∀ x ∈ e.operands.2, x.2.WithoutNull := by
  induction e with
  | number digit digits => exact ⟨trivial, nofun⟩
  | ident name => exact ⟨trivial, nofun⟩
  | paren opening closing e ih =>
      obtain ⟨hfirst, hrest⟩ :=
        OpTree.repair_sequence Operator.prec (.leaf e.operands.1) e.operands.2
      refine ⟨?_, nofun⟩
      rw [operands, build_iff (P := AstNode.WithoutNull) fun _ _ _ => Iff.rfl, OpTree.leaves_eq,
        hfirst, hrest]
      exact List.forall_mem_cons.mpr ⟨ih.1, List.forall_mem_map.mpr ih.2⟩
  | binary op l r ihl ihr =>
      refine ⟨ihl.1, fun x hx => ?_⟩
      rw [operands, List.mem_append, List.mem_cons] at hx
      rcases hx with hx | rfl | hx
      · exact ihl.2 x hx
      · exact ihr.1
      · exact ihr.2 x hx

theorem parsed_withoutNull (e : Expr) : e.parsed.WithoutNull := by
  obtain ⟨hfirst, hrest⟩ :=
    OpTree.repair_sequence Operator.prec (.leaf e.operands.1) e.operands.2
  rw [parsed, build_iff (P := AstNode.WithoutNull) fun _ _ _ => Iff.rfl, OpTree.leaves_eq,
    hfirst, hrest]
  exact List.forall_mem_cons.mpr
    ⟨e.operands_withoutNull.1, List.forall_mem_map.mpr e.operands_withoutNull.2⟩

end Expr

/-! ## The nodes of an expression -/

section Results

variable {R : Type} {tokenNext : R → Token × R}

/-- Peeking leaves the token in the peek slot. -/
theorem parserPeekToken_hasPeek (p : Parser R) :
    (parserPeekToken tokenNext p).2.hasPeek = true := by
  unfold parserPeekToken
  by_cases hpeek : p.hasPeek
  · rw [if_pos hpeek]
    exact hpeek
  · rw [if_neg hpeek]

/-- An expression ends at a token that has been peeked at, by induction on the fuel. -/
theorem parserParseBinary_hasPeek {fuel : ℕ} {p p' : Parser R} {left node : AstNode}
    (h : parserParseBinary tokenNext fuel p left = .ok (node, p')) (hnode : node.isNull = false) :
    p'.hasPeek = true := by
  induction fuel generalizing p p' left node with
  | zero =>
      rw [parserParseBinary] at h
      cases h
  | succ fuel ih =>
      have hpeek : (parserPeekToken tokenNext p).2.hasPeek = true := parserPeekToken_hasPeek p
      rw [parserParseBinary] at h
      revert h hpeek
      generalize parserPeekToken tokenNext p = result
      obtain ⟨op, p₁⟩ := result
      intro h hpeek
      dsimp only at h
      by_cases hop : getPresedence op.type = -1
      · rw [if_pos hop] at h
        cases h
        exact hpeek
      · rw [if_neg hop] at h
        obtain ⟨⟨right, p₂⟩, -, h⟩ := exists_of_bind_ok h
        dsimp only at h
        by_cases hright : right.isNull = true
        · rw [if_pos hright] at h
          cases h
          cases hnode
        · rw [if_neg hright] at h
          obtain ⟨⟨result, p₃⟩, hresult, h⟩ := exists_of_bind_ok h
          dsimp only at h
          by_cases hnull : result.isNull = true
          · rw [if_pos hnull] at h
            cases h
            cases hnode
          · rw [if_neg hnull] at h
            obtain ⟨rotated, -, h⟩ := exists_of_bind_ok h
            cases h
            exact ih hresult (Bool.eq_false_iff.mpr hnull)

theorem parserParseExpression_hasPeek {fuel : ℕ} {p p' : Parser R} {node : AstNode}
    (h : parserParseExpression tokenNext fuel p = .ok (node, p')) (hnode : node.isNull = false) :
    p'.hasPeek = true := by
  cases fuel with
  | zero =>
      rw [parserParseExpression] at h
      cases h
  | succ fuel =>
      rw [parserParseExpression] at h
      obtain ⟨⟨left, p₁⟩, -, h⟩ := exists_of_bind_ok h
      exact parserParseBinary_hasPeek h hnode

theorem Upcoming.peek_eq {p : Parser R} {t : Token} {ts : List Token} {r' : R}
    (h : Upcoming tokenNext p (t :: ts) r') (hpeek : p.hasPeek = true) : p.peek = t := by
  unfold Upcoming at h
  rw [if_pos hpeek] at h
  obtain ⟨ts', heq, -⟩ := h
  exact (List.cons.inj heq).1.symm

/-- Without null pointers the tree has every node made, each once. -/
theorem Owns.perm {base : ℕ} {nodes : Nodes} {root : Option ℕ} {tree : AstNode} {addrs : List ℕ}
    (h : Owns nodes base root tree addrs) (htree : tree.WithoutNull) :
    addrs.Perm (List.range' base (nodes.length - base)) := by
  have hsub : addrs ⊆ List.range' base (nodes.length - base) := by
    intro a ha
    have hle := h.base_le a ha
    have hlt := h.treeAt.lt_length a ha
    exact List.mem_range'_1.mpr ⟨hle, by omega⟩
  have hall := h.all htree
  refine (List.subperm_of_subset h.nodup hsub).perm_of_length_le ?_
  rw [List.length_range']
  omega

/-- **Every node is in the tree once, in the order of the source.**  The tokens of an
expression without signs, followed by a token that is not an operator, are read into a tree
whose nodes are the nodes that were made, each of them once; from left to right they are
the operands and operators that were read.  No other node has changed, and the token after
the expression is in the peek slot. -/
theorem linkedExpression_inOrder (tokenNext : R → Token × R) (e : Expr) (fuel : ℕ)
    (hfuel : 2 * e.tokens.length + 1 ≤ fuel) (p : Parser R) (nodes : Nodes) (stop : Token)
    (hstop : getPresedence stop.type = -1) (ts : List Token) (r' : R)
    (hp : Upcoming tokenNext p (e.tokens ++ stop :: ts) r') :
    ∃ root p' nodes' tree addrs,
      Linked.parserParseExpression tokenNext fuel p nodes = .ok (some root, p', nodes') ∧
      TreeAt nodes' (some root) tree addrs ∧
      addrs.Perm (List.range' nodes.length (nodes'.length - nodes.length)) ∧
      addrs.map (fun a => (nodes'[a]?).map NodeCell.symbol) =
        (e.tokens.filterMap tokenSymbol).map some ∧
      (∀ a < nodes.length, nodes'[a]? = nodes[a]?) ∧
      p'.hasPeek = true ∧ p'.peek = stop ∧ Upcoming tokenNext p' (stop :: ts) r' := by
  obtain ⟨p₁, hparse, hp₁, -⟩ := e.parserParseExpression_eq fuel hfuel p stop hstop ts r' hp
  have hnull : e.parsed.isNull = false := Phrase.withoutNull_isNull e.parsed_withoutNull
  have hpeek := parserParseExpression_hasPeek hparse hnull
  have hrefines : SameOutcome (BuildsSame nodes.length nodes)
      (parserParseExpression tokenNext fuel p)
      (Linked.parserParseExpression tokenNext fuel p nodes) := (expressions_refine fuel).2.1 p nodes
  rw [hparse] at hrefines
  obtain ⟨⟨root, p', nodes'⟩, hlinked, rfl, -, hframe, addrs, howns⟩ := hrefines.exists_ok
  cases root with
  | none =>
      have hnone := howns.treeAt.isNull_eq
      rw [hnull] at hnone
      cases hnone
  | some root =>
      refine ⟨root, _, nodes', e.parsed, addrs, hlinked, howns.treeAt,
        howns.perm e.parsed_withoutNull, ?_, hframe, hpeek, hp₁.peek_eq hpeek, hp₁⟩
      rw [howns.treeAt.map_symbol, e.inOrder_parsed]

/-- `a + b * c;` -/
theorem linkedExpression_inOrder_rotated :
    let e : Expr := .binary (operatorOf .PLUS (by decide)) (.ident [97])
      (.binary (operatorOf .MUL (by decide)) (.ident [98]) (.ident [99]))
    let stop : Token := ⟨.SEMI_COLON, []⟩
    ∃ root p' nodes' tree addrs,
      Linked.parserParseExpression streamNext 11 { reader := e.tokens ++ [stop] } [] =
        .ok (some root, p', nodes') ∧
      TreeAt nodes' (some root) tree addrs ∧ addrs.Perm (List.range' 0 nodes'.length) ∧
      addrs.map (fun a => (nodes'[a]?).map NodeCell.symbol) =
        [some (.ident [97]), some (.operator .PLUS), some (.ident [98]), some (.operator .MUL),
          some (.ident [99])] ∧
      p'.hasPeek = true ∧ p'.peek = stop := by
  intro e stop
  obtain ⟨root, p', nodes', tree, addrs, hparse, htree, hperm, hsymbols, -, hpeek, hstop, -⟩ :=
    linkedExpression_inOrder streamNext e 11 (by decide) { reader := e.tokens ++ [stop] } []
      stop (by decide) [] [] (upcoming_stream _)
  exact ⟨root, p', nodes', tree, addrs, hparse, htree, hperm, hsymbols, hpeek, hstop⟩

end Results
