/-
# Traversals of the syntax tree (`parser.c`)

`ast_dump` and the walk behind `ast_dumpDot` go through a tree by `ast_getChilds`.  A node is
named by its position in the tree.  `ast_dump` prints each node; `ast_dumpDot` adds it to a
graph, with an edge to each child, and the whole graph is one text in one buffer.

* `astDump_iff`, `astDumpDot_iff` : when each walk gets through, and what it has done then;
* `astDump_visits_iff` : both reach every node once and in pre-order exactly if the tree has no
  return statement, for which `ast_getChilds` has no case, no null pointer and no pointer that a
  sign has damaged, and the texts fit in their buffers.
-/
import MCompiler.AstText
import MCompiler.Lib.Preorder
import MCompiler.ParserLiterals
import MCompiler.ParserStatements

/-! ## The walks -/

/-- `ast_getChilds`: the pointers to the children; `none` is a wild one. -/
def astGetChilds : AstNode → Except WalkStop (List (Option AstNode))
  | .null => .error .nullDeref
  | .number _ => .ok []
  | .variable _ _ => .ok []
  | .binaryExp _ left right wild => .ok [if wild then none else some left, some right]
  | .while condition block => .ok [some condition, some block]
  | .if condition ifBlock => .ok [some condition, some ifBlock]
  | .block childs => .ok (childs.map some)
  -- the default case
  | .return => .error .assertFailed
  | .declaration _ assignment => .ok [some assignment]
  | .function _ _ _ childs => .ok (childs.map some)

/-- A node with its position. -/
abbrev AstVisit := List ℕ × AstNode

/-- `ast_dump`: the nodes printed, with what is printed of each. -/
def astDump : ℕ → Option AstNode → ℕ → List ℕ → Except WalkStop (List (AstVisit × List UInt8))
  | 0, _, _, _ => .error .outOfFuel
  | _ + 1, none, _, _ => .error .wildDeref
  | fuel + 1, some node, i, position => do
      let info ← astNodeInfo node i
      let childs ← astGetChilds node
      let dumped ← childs.zipIdx.mapM fun child =>
        astDump fuel child.1 (i + 1) (position ++ [child.2])
      .ok (((position, node), info) :: dumped.flatten)

/-- What `_ast_dumpDot` adds to the graph. -/
inductive AstDotItem where
  | node (visit : AstVisit)
  | edge (parent child : List ℕ)

/-- The graph, and what has been added to it. -/
structure AstDot where
  graph : DotGraph
  items : List AstDotItem

section Dot

-- the address of the node at a position
variable (addr : List ℕ → UInt64)

/-- `graph_addEdge` to a child. -/
def AstDot.addEdge (s : AstDot) (parent child : List ℕ) : AstDot where
  graph := graphAddEdge s.graph (getNodeId (addr parent)) (getNodeId (addr child))
  items := s.items ++ [.edge parent child]

/-- `graph_setNodeProps` for a node. -/
def AstDot.setNode (s : AstDot) (visit : AstVisit) (label : List UInt8) : AstDot where
  graph := graphSetNodeProps s.graph (getNodeId (addr visit.1)) label
  items := s.items ++ [.node visit]

/-- `_ast_dumpDot`. -/
def astDumpDotNode : ℕ → Option AstNode → List ℕ → AstDot → Except WalkStop AstDot
  | 0, _, _, _ => .error .outOfFuel
  | _ + 1, none, _, _ => .error .wildDeref
  | fuel + 1, some node, position, s => do
      let childs ← astGetChilds node
      let label ← astNodeLabel node
      childs.zipIdx.foldlM
        (fun s child => astDumpDotNode fuel child.1 (position ++ [child.2])
          (s.addEdge addr position (position ++ [child.2])))
        (s.setNode addr (position, node) label)

/-- `ast_dumpDot`: the items, and the string that is returned. -/
def astDumpDot (fuel : ℕ) (node : AstNode) : Except WalkStop (List AstDotItem × List UInt8) := do
  let s ← astDumpDotNode addr fuel (some node) [] ⟨graphInit "ast" true, []⟩
  match graphFinalize s.graph with
  | none => .error .overrun
  | some text => .ok (s.items, text)

end Dot

/-! ## The tree -/

namespace AstNode

/-- The children that the parser gave a node. -/
def subnodes : AstNode → List AstNode
  | .null => []
  | .number _ => []
  | .variable _ _ => []
  | .binaryExp _ left right _ => [left, right]
  | .while condition body => [condition, body]
  | .if condition body => [condition, body]
  | .block childs => childs
  | .return => []
  | .declaration _ assignment => [assignment]
  | .function _ _ _ childs => childs

/-- A node that is there, is no return statement and has no damaged pointer. -/
def Plain : AstNode → Prop
  | .null => False
  | .variable _ wild => wild = false
  | .binaryExp _ _ _ wild => wild = false
  | .return => False
  | _ => True

theorem sizeOf_subnodes {node child : AstNode} (h : child ∈ node.subnodes) :
    sizeOf child < sizeOf node := by
  cases node with
  | null => simp [subnodes] at h
  | number num => simp [subnodes] at h
  | «variable» varName wild => simp [subnodes] at h
  | binaryExp op left right wild =>
    simp only [subnodes, List.mem_cons, List.not_mem_nil, or_false] at h
    rw [AstNode.binaryExp.sizeOf_spec]
    rcases h with rfl | rfl <;> omega
  | «while» condition body =>
    simp only [subnodes, List.mem_cons, List.not_mem_nil, or_false] at h
    rw [AstNode.«while».sizeOf_spec]
    rcases h with rfl | rfl <;> omega
  | «if» condition body =>
    simp only [subnodes, List.mem_cons, List.not_mem_nil, or_false] at h
    rw [AstNode.«if».sizeOf_spec]
    rcases h with rfl | rfl <;> omega
  | block childs =>
    have hlt := List.sizeOf_lt_of_mem h
    rw [AstNode.block.sizeOf_spec]
    simp only [subnodes] at hlt
    omega
  | «return» => simp [subnodes] at h
  | declaration dataType assignment =>
    simp only [subnodes, List.mem_cons, List.not_mem_nil, or_false] at h
    subst h
    rw [AstNode.declaration.sizeOf_spec]
    omega
  | function name returnType argumentCount childs =>
    have hlt := List.sizeOf_lt_of_mem h
    rw [AstNode.function.sizeOf_spec]
    simp only [subnodes] at hlt
    omega

end AstNode

/-- A node can be read and gives its children exactly if it is plain. -/
theorem plain_iff (node : AstNode) :
    node.Plain ↔ node.Readable ∧ astGetChilds node = .ok (node.subnodes.map some) := by
  cases node with
  | «variable» varName wild => cases wild <;> simp [AstNode.Plain, AstNode.Readable,
      astGetChilds, AstNode.subnodes]
  | binaryExp op left right wild => cases wild <;> simp [AstNode.Plain, AstNode.Readable,
      astGetChilds, AstNode.subnodes]
  | _ => simp [AstNode.Plain, AstNode.Readable, astGetChilds, AstNode.subnodes]

/-- A node that is read without a stop and has no wild pointer to a child is plain. -/
theorem plain_of_childs {node : AstNode} {childs : List (Option AstNode)}
    (hread : node.Readable) (hchilds : astGetChilds node = .ok childs)
    (hwild : ∀ i : ℕ, childs[i]? ≠ some (none : Option AstNode)) : node.Plain := by
  cases node with
  | «variable» varName wild => exact hread
  | binaryExp op left right wild =>
    cases wild with
    | false => rfl
    | true =>
      cases hchilds
      exact absurd rfl (hwild 0)
  | null => exact hread
  | «return» => cases hchilds
  | _ => trivial

/-- The conditions on the nodes of a tree, for the root and for those below it. -/
theorem forall_descend_iff {root : AstNode} {P : List ℕ → AstNode → Prop} :
    (∀ position n, descend AstNode.subnodes root position = some n → P position n) ↔
      P [] root ∧ ∀ i child, root.subnodes[i]? = some child →
        ∀ position n, descend AstNode.subnodes child position = some n → P (i :: position) n := by
  constructor
  · intro h
    exact ⟨h [] root rfl, fun i child hchild position n hn =>
      h (i :: position) n (descend_cons.2 ⟨child, hchild, hn⟩)⟩
  · rintro ⟨hroot, hchilds⟩ (_ | ⟨i, position⟩) n hn
    · cases hn
      exact hroot
    · obtain ⟨child, hchild, hrest⟩ := descend_cons.1 hn
      exact hchilds i child hchild position n hrest

/-! ## What the walks do -/

/-- The line that `ast_dump` prints of a node. -/
def astLine (visit : AstVisit) : List UInt8 :=
  cString (nodeLinePushes visit.2 visit.1.length).flatten

/-- What is added to the graph for a node: the edge to it, and the node. -/
def astVisitItems (visit : AstVisit) : List AstDotItem :=
  if visit.1 = [] then [.node visit] else [.edge visit.1.dropLast visit.1, .node visit]

/-- The pushes for an item of the graph. -/
def astItemPushes (addr : List ℕ → UInt64) : AstDotItem → List (List UInt8)
  | .node visit =>
      nodePushes (getNodeId (addr visit.1)) (cString (nodeLabelPushes visit.2).flatten)
  | .edge parent child => edgePushes (getNodeId (addr parent)) (getNodeId (addr child))

/-- The graph has these items. -/
structure AstDot.Drawn (addr : List ℕ → UInt64) (s : AstDot) (drawn : List AstDotItem) :
    Prop where
  items : s.items = drawn
  graph : s.graph.Holds "ast" (drawn.flatMap (astItemPushes addr))

section Walks

variable {addr : List ℕ → UInt64}

/-- A walk over plain nodes prints them in pre-order, if their texts fit. -/
theorem astDump_of_plain (fuel : ℕ) : ∀ (node : AstNode) (start : List ℕ),
    (∀ position n, descend AstNode.subnodes node position = some n → n.Plain ∧
      FitsBuffer ((nodeLinePushes n (start.length + position.length)).map List.length) ∧
      position.length < fuel) →
    astDump fuel (some node) start.length start =
      .ok ((preorder AstNode.subnodes fuel node start).map fun v => (v, astLine v)) := by
  induction fuel with
  | zero =>
    intro node start h
    exact absurd (h [] node rfl).2.2 (Nat.not_lt_zero _)
  | succ fuel ih =>
    intro node start h
    obtain ⟨⟨hplain, hfits, -⟩, hchilds⟩ := forall_descend_iff.1 h
    obtain ⟨hread, hget⟩ := (plain_iff node).1 hplain
    have hinfo : astNodeInfo node start.length = .ok (astLine (start, node)) :=
      astNodeInfo_iff.2 ⟨hread, hfits, rfl⟩
    have hdumped : (node.subnodes.map some).zipIdx.mapM
        (fun child => astDump fuel child.1 (start.length + 1) (start ++ [child.2]))
          = .ok (node.subnodes.zipIdx.map fun child =>
            (preorder AstNode.subnodes fuel child.1 (start ++ [child.2])).map
              fun v => (v, astLine v)) := by
      rw [List.zipIdx_map, List.mapM_map]
      apply mapM_ok
      rintro ⟨child, i⟩ hchild
      rw [List.mem_zipIdx_iff_getElem?] at hchild
      have hlength : (start ++ [i]).length = start.length + 1 := List.length_append
      rw [← hlength]
      refine ih child (start ++ [i]) fun position n hn => ?_
      obtain ⟨hplain, hfits, hlt⟩ := hchilds i child hchild position n hn
      rw [List.length_cons] at hfits hlt
      refine ⟨hplain, ?_, Nat.lt_of_succ_lt_succ hlt⟩
      rwa [hlength, Nat.add_assoc, Nat.add_comm 1]
    rw [astDump, hinfo, hget, ok_bind, ok_bind, hdumped, ok_bind, preorder, List.map_cons,
      List.map_flatMap, List.flatMap_def]

/-- A walk that gets through has met plain nodes only, whose texts fit. -/
theorem plain_of_astDump (fuel : ℕ) : ∀ (node : AstNode) (i : ℕ) (start : List ℕ) printed,
    astDump fuel (some node) i start = .ok printed →
    ∀ position n, descend AstNode.subnodes node position = some n → n.Plain ∧
      FitsBuffer ((nodeLinePushes n (i + position.length)).map List.length) ∧
      position.length < fuel := by
  induction fuel with
  | zero =>
    intro node i start printed h
    cases h
  | succ fuel ih =>
    intro node i start printed h
    rw [astDump] at h
    obtain ⟨info, hinfo, h⟩ := exists_of_bind_ok h
    obtain ⟨childs, hget, h⟩ := exists_of_bind_ok h
    obtain ⟨dumped, hdumped, -⟩ := exists_of_bind_ok h
    obtain ⟨hread, hfits, -⟩ := astNodeInfo_iff.1 hinfo
    have hall := exists_of_mapM_ok hdumped
    have hplain : node.Plain := plain_of_childs hread hget fun k hk => by
      obtain ⟨printed', hprinted⟩ := hall (none, k) (List.mem_zipIdx_iff_getElem?.2 hk)
      cases fuel <;> cases hprinted
    refine forall_descend_iff.2 ⟨⟨hplain, hfits, Nat.succ_pos _⟩, ?_⟩
    intro k child hchild position n hn
    have heq : childs = node.subnodes.map some :=
      Except.ok.inj (hget.symm.trans ((plain_iff node).1 hplain).2)
    obtain ⟨printed', hprinted⟩ := hall (some child, k) (by
      rw [List.mem_zipIdx_iff_getElem?, heq, List.getElem?_map, hchild]
      rfl)
    obtain ⟨hplain', hfits', hlt⟩ := ih child _ _ printed' hprinted position n hn
    rw [List.length_cons]
    refine ⟨hplain', ?_, Nat.succ_lt_succ hlt⟩
    rwa [Nat.add_assoc, Nat.add_comm 1] at hfits'

theorem AstDot.Drawn.addEdge {s : AstDot} {items : List AstDotItem} (h : s.Drawn addr items)
    (parent child : List ℕ) :
    (s.addEdge addr parent child).Drawn addr (items ++ [.edge parent child]) where
  items := congrArg (· ++ [AstDotItem.edge parent child]) h.items
  graph := by
    rw [List.flatMap_append, List.flatMap_singleton]
    exact h.graph.addEdge _ _

theorem AstDot.Drawn.setNode {s : AstDot} {items : List AstDotItem} (h : s.Drawn addr items)
    (visit : AstVisit) :
    (s.setNode addr visit (cString (nodeLabelPushes visit.2).flatten)).Drawn addr
      (items ++ [.node visit]) where
  items := congrArg (· ++ [AstDotItem.node visit]) h.items
  graph := by
    rw [List.flatMap_append, List.flatMap_singleton]
    exact h.graph.setNodeProps _ _

/-- What a walk adds below the node that it is called for. -/
def itemsBelow (fuel : ℕ) (node : AstNode) (start : List ℕ) : List AstDotItem :=
  (preorder AstNode.subnodes fuel node start).tail.flatMap astVisitItems

/-- The edge to a child and the call for it add what belongs to the nodes from it on. -/
theorem edge_itemsBelow {fuel : ℕ} (hfuel : 0 < fuel) (child : AstNode) (start : List ℕ)
    (i : ℕ) :
    [.edge start (start ++ [i])] ++
        (.node (start ++ [i], child) :: itemsBelow fuel child (start ++ [i])) =
      (preorder AstNode.subnodes fuel child (start ++ [i])).flatMap astVisitItems := by
  obtain ⟨fuel, rfl⟩ : ∃ k, fuel = k + 1 := ⟨fuel - 1, by omega⟩
  have hvisit : astVisitItems (start ++ [i], child) =
      [.edge start (start ++ [i]), .node (start ++ [i], child)] := by
    unfold astVisitItems
    rw [if_neg (by simp), List.dropLast_concat]
  unfold itemsBelow
  rw [preorder, List.tail_cons, List.flatMap_cons, hvisit]
  rfl

/-- A walk over plain nodes adds them in pre-order, if their labels fit. -/
theorem astDumpDotNode_of_plain (fuel : ℕ) : ∀ (node : AstNode) (start : List ℕ) (s : AstDot)
    (items : List AstDotItem), s.Drawn addr items →
    (∀ position n, descend AstNode.subnodes node position = some n → n.Plain ∧
      FitsBuffer ((nodeLabelPushes n).map List.length) ∧ position.length < fuel) →
    ∃ s', astDumpDotNode addr fuel (some node) start s = .ok s' ∧
      s'.Drawn addr (items ++ .node (start, node) :: itemsBelow fuel node start) := by
  induction fuel with
  | zero =>
    intro node start s items _ h
    exact absurd (h [] node rfl).2.2 (Nat.not_lt_zero _)
  | succ fuel ih =>
    intro node start s items hdrawn h
    obtain ⟨⟨hplain, hfits, -⟩, hchilds⟩ := forall_descend_iff.1 h
    obtain ⟨hread, hget⟩ := (plain_iff node).1 hplain
    have hlabel := astNodeLabel_iff.2 ⟨hread, hfits, rfl⟩
    -- after the children `done`
    let before : List (AstNode × ℕ) → List AstDotItem := fun done =>
      items ++ [.node (start, node)] ++ done.flatMap fun child =>
        (preorder AstNode.subnodes fuel child.1 (start ++ [child.2])).flatMap astVisitItems
    have hround : ∀ child ∈ node.subnodes.zipIdx, ∀ done (s : AstDot), s.Drawn addr (before done) →
        ∃ s', astDumpDotNode addr fuel (some child.1) (start ++ [child.2])
            (s.addEdge addr start (start ++ [child.2])) = .ok s' ∧
          s'.Drawn addr (before (done ++ [child])) := by
      rintro ⟨child, i⟩ hchild done s hs
      rw [List.mem_zipIdx_iff_getElem?] at hchild
      have hbelow := hchilds i child hchild
      obtain ⟨s', hs', hdrawn'⟩ := ih child (start ++ [i]) _ _
        (hs.addEdge start (start ++ [i])) fun position n hn =>
          ⟨(hbelow position n hn).1, (hbelow position n hn).2.1,
            Nat.lt_of_succ_lt_succ (hbelow position n hn).2.2⟩
      refine ⟨s', hs', ?_⟩
      have hpos : 0 < fuel := Nat.lt_of_succ_lt_succ (hbelow [] child rfl).2.2
      have hitems : before (done ++ [(child, i)]) = before done ++ ([.edge start (start ++ [i])] ++
          (.node (start ++ [i], child) :: itemsBelow fuel child (start ++ [i]))) := by
        dsimp only [before]
        rw [edge_itemsBelow hpos, List.flatMap_append, List.flatMap_singleton]
        exact (List.append_assoc _ _ _).symm
      rw [hitems, ← List.append_assoc]
      exact hdrawn'
    have hnode : (s.setNode addr (start, node) (cString (nodeLabelPushes node).flatten)).Drawn addr
        (before []) := by
      dsimp only [before]
      rw [List.flatMap_nil, List.append_nil]
      exact hdrawn.setNode (start, node)
    obtain ⟨s', hs', hdrawn'⟩ := foldlM_ok hround hnode
    refine ⟨s', ?_, ?_⟩
    · rw [astDumpDotNode, hget, hlabel, ok_bind, ok_bind, List.zipIdx_map, List.foldlM_map]
      exact hs'
    · have hitems : before ([] ++ node.subnodes.zipIdx) =
          items ++ .node (start, node) :: itemsBelow (fuel + 1) node start := by
        dsimp only [before]
        unfold itemsBelow
        rw [preorder, List.tail_cons, List.flatMap_assoc, List.nil_append, List.append_assoc]
        rfl
      rw [← hitems]
      exact hdrawn'

/-- A walk that gets through has met plain nodes only, whose labels fit. -/
theorem plain_of_astDumpDotNode (fuel : ℕ) : ∀ (node : AstNode) (start : List ℕ) (s s' : AstDot),
    astDumpDotNode addr fuel (some node) start s = .ok s' →
    ∀ position n, descend AstNode.subnodes node position = some n → n.Plain ∧
      FitsBuffer ((nodeLabelPushes n).map List.length) ∧ position.length < fuel := by
  induction fuel with
  | zero =>
    intro node start s s' h
    cases h
  | succ fuel ih =>
    intro node start s s' h
    rw [astDumpDotNode] at h
    obtain ⟨childs, hget, h⟩ := exists_of_bind_ok h
    obtain ⟨label, hlabel, h⟩ := exists_of_bind_ok h
    obtain ⟨hread, hfits, -⟩ := astNodeLabel_iff.1 hlabel
    have hall := exists_of_foldlM_ok h
    have hplain : node.Plain := plain_of_childs hread hget fun k hk => by
      obtain ⟨s₁, s₂, hs₂⟩ := hall (none, k) (List.mem_zipIdx_iff_getElem?.2 hk)
      cases fuel <;> cases hs₂
    refine forall_descend_iff.2 ⟨⟨hplain, hfits, Nat.succ_pos _⟩, ?_⟩
    intro k child hchild position n hn
    have heq : childs = node.subnodes.map some :=
      Except.ok.inj (hget.symm.trans ((plain_iff node).1 hplain).2)
    obtain ⟨s₁, s₂, hs₂⟩ := hall (some child, k) (by
      rw [List.mem_zipIdx_iff_getElem?, heq, List.getElem?_map, hchild]
      rfl)
    obtain ⟨hplain', hfits', hlt⟩ := ih child _ _ s₂ hs₂ position n hn
    exact ⟨hplain', hfits', Nat.succ_lt_succ hlt⟩

end Walks

/-! ## The trees that are covered -/

/-- Every node of the tree once, in pre-order: the positions increase, so that a node comes
before those below it and before those of its later siblings. -/
structure Visits (root : AstNode) (visited : List AstVisit) : Prop where
  nodes : ∀ position node, (position, node) ∈ visited ↔
    descend AstNode.subnodes root position = some node
  order : (visited.map Prod.fst).Pairwise (· < ·)

/-- The nodes `order` of a tree are plain, and their texts fit: each line of `ast_dump` and each
label in a buffer of its own, the graph in another one. -/
structure AstFits (addr : List ℕ → UInt64) (order : List AstVisit) : Prop where
  plain : ∀ v ∈ order, v.2.Plain
  lines : ∀ v ∈ order, FitsBuffer ((nodeLinePushes v.2 v.1.length).map List.length)
  labels : ∀ v ∈ order, FitsBuffer ((nodeLabelPushes v.2).map List.length)
  graph : GraphFits "ast" ((order.flatMap astVisitItems).flatMap (astItemPushes addr))

/-- The nodes of a tree in pre-order. -/
noncomputable def astOrder (root : AstNode) : List AstVisit :=
  preorder AstNode.subnodes (sizeOf root + 1) root []

/-- A position is no longer than the tree is large. -/
theorem length_position {root n : AstNode} {position : List ℕ}
    (h : descend AstNode.subnodes root position = some n) : position.length < sizeOf root + 1 := by
  have hle := length_of_descend (fun a c hc => AstNode.sizeOf_subnodes hc) h
  omega

theorem mem_astOrder {root n : AstNode} {position : List ℕ} :
    (position, n) ∈ astOrder root ↔ descend AstNode.subnodes root position = some n := by
  unfold astOrder
  rw [mem_preorder]
  constructor
  · rintro ⟨rest, rfl, -, hrest⟩
    exact hrest
  · intro hnode
    exact ⟨position, rfl, length_position hnode, hnode⟩

theorem visits_astOrder (root : AstNode) : Visits root (astOrder root) where
  nodes _ _ := mem_astOrder
  order := pairwise_preorder _ _ _

/-- A walk with enough fuel is over the nodes of the tree. -/
theorem preorder_eq_astOrder {root : AstNode} {fuel : ℕ}
    (h : ∀ position n, descend AstNode.subnodes root position = some n → position.length < fuel) :
    preorder AstNode.subnodes fuel root [] = astOrder root := by
  unfold astOrder
  rcases Nat.le_total fuel (sizeOf root + 1) with hle | hle
  · exact (preorder_of_le hle h).symm
  · exact preorder_of_le hle fun position n hn => length_position hn

/-- What `ast_dumpDot` has added when it has gone through the tree. -/
theorem drawn_astOrder (addr : List ℕ → UInt64) {root : AstNode} {fuel : ℕ}
    (h : ∀ position n, descend AstNode.subnodes root position = some n → n.Plain ∧
      FitsBuffer ((nodeLabelPushes n).map List.length) ∧ position.length < fuel) :
    ∃ s, astDumpDotNode addr fuel (some root) [] ⟨graphInit "ast" true, []⟩ = .ok s ∧
      s.Drawn addr ((astOrder root).flatMap astVisitItems) := by
  obtain ⟨s, hs, hdrawn⟩ := astDumpDotNode_of_plain fuel root [] ⟨graphInit "ast" true, []⟩ []
    ⟨rfl, graphInit_holds "ast"⟩ h
  refine ⟨s, hs, ?_⟩
  have horder := preorder_eq_astOrder fun position n hn => (h position n hn).2.2
  obtain ⟨fuel, rfl⟩ : ∃ k, fuel = k + 1 := ⟨fuel - 1, by
    have hpos := (h [] root rfl).2.2
    omega⟩
  rw [← horder, preorder, List.flatMap_cons]
  exact hdrawn

/-- **Which trees the traversals cover**: both walks get through, print the nodes and add them
to the graph in pre-order, each once, exactly if the nodes are plain (there is no return
statement, no null pointer and no pointer that a sign has damaged) and the texts fit in their
buffers. -/
theorem astDump_visits_iff (root : AstNode) (addr : List ℕ → UInt64) :
    ∃ order, Visits root order ∧
      ((∃ fuel printed items text, astDump fuel (some root) 0 [] = .ok printed ∧
          astDumpDot addr fuel root = .ok (items, text) ∧ printed.map Prod.fst = order ∧
          items = order.flatMap astVisitItems) ↔
        AstFits addr order) := by
  refine ⟨astOrder root, visits_astOrder root, ?_⟩
  constructor
  · rintro ⟨fuel, printed, items, text, hdump, hdot, -, -⟩
    have hlines := plain_of_astDump fuel root 0 [] printed hdump
    obtain ⟨s, hs, hfinal⟩ := exists_of_bind_ok hdot
    have hlabels := plain_of_astDumpDotNode fuel root [] _ s hs
    obtain ⟨s', hs', hdrawn⟩ := drawn_astOrder addr hlabels
    obtain rfl := Except.ok.inj (hs.symm.trans hs')
    refine ⟨fun v hv => (hlines v.1 v.2 (mem_astOrder.1 hv)).1, fun v hv => ?_,
      fun v hv => (hlabels v.1 v.2 (mem_astOrder.1 hv)).2.1, ?_⟩
    · have hfits := (hlines v.1 v.2 (mem_astOrder.1 hv)).2.1
      rwa [Nat.zero_add] at hfits
    · cases htext : graphFinalize s.graph with
      | none =>
        rw [htext] at hfinal
        cases hfinal
      | some result => exact ((graphFinalize_iff hdrawn.graph).1 htext).1
  · intro h
    have hnode : ∀ position n, descend AstNode.subnodes root position = some n →
        n.Plain ∧ FitsBuffer ((nodeLabelPushes n).map List.length) ∧
          position.length < sizeOf root + 1 := fun position n hn =>
      ⟨h.plain (position, n) (mem_astOrder.2 hn), h.labels (position, n) (mem_astOrder.2 hn),
        length_position hn⟩
    have hdump := astDump_of_plain (sizeOf root + 1) root [] fun position n hn => by
      refine ⟨(hnode position n hn).1, ?_, length_position hn⟩
      rw [List.length_nil, Nat.zero_add]
      exact h.lines (position, n) (mem_astOrder.2 hn)
    obtain ⟨s, hs, hdrawn⟩ := drawn_astOrder addr hnode
    obtain ⟨text, hfinal⟩ : ∃ text, graphFinalize s.graph = some text :=
      ⟨_, (graphFinalize_iff hdrawn.graph).2 ⟨h.graph, rfl⟩⟩
    refine ⟨_, _, s.items, text, hdump, ?_, ?_, hdrawn.items⟩
    · unfold astDumpDot
      rw [hs, ok_bind, hfinal]
    · rw [List.map_map]
      exact List.map_id _

/-- The tokens of `void f() return;`. -/
def returnTokens : List Token :=
  [⟨.KW_VOID, []⟩, ⟨.ID, [byte 'f']⟩, ⟨.PARAN_OPEN, []⟩, ⟨.PARAN_CLOSE, []⟩, ⟨.KW_RETURN, []⟩,
    ⟨.SEMI_COLON, []⟩]

/-- A return statement, which no traversal covers. -/
theorem astDump_not_visits :
    ∃ root p, parserParseFunction tokenList 5 (parserInit returnTokens) = .ok (root, p) ∧
      root.isNull = false ∧
      ¬ ∃ fuel printed, astDump fuel (some root) 0 [] = .ok printed := by
  refine ⟨.function [byte 'f'] .KW_VOID 0 [.block [.return]], _, rfl, rfl, ?_⟩
  rintro ⟨fuel, printed, hdump⟩
  exact (plain_of_astDump fuel _ 0 [] printed hdump [0, 0] .return rfl).1
