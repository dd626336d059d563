/-
# Dominators (`dominators.h`, `dominators.c`)

The recursion of `_visit` and the loops of `intersect` and `dominators_compute` get a
bound on their number of steps, and fail when it is used up; so does a read outside an
array and the use of a missing entry of the hash map.  The hash map is the finite map from
blocks to numbers, and the dynamic buffers are lists.
-/
import MCompiler.Ir

/-- The conversion of an `int` to `size_t`. -/
def sizeOfInt (n : ℤ) : ℕ := (n % 2 ^ 64).toNat

/-- `SIZE_MAX`. -/
def sizeMax : ℕ := 2 ^ 64 - 1

/-- `struct dom_node`; a child is the index of its node. -/
structure DomNode where
  number : ℕ
  childs : List ℕ
  deriving DecidableEq

/-- `struct dominators`; `nodeToNum` gives the `number` of the `node_data` of a block. -/
structure Dominators where
  domNodes : List DomNode
  doms : List ℕ
  nodeToNum : ℕ → Option ℤ
  postorder : List ℕ
  elementCount : ℕ

/-! ## The postorder -/

/-- What `_visit` changes. -/
structure VisitState where
  nodeToNum : ℕ → Option ℤ
  postorder : List ℕ

/-- The `node_data` of a block gets a number. -/
def VisitState.setNumber (s : VisitState) (block : ℕ) (number : ℤ) : VisitState :=
  { s with nodeToNum := Function.update s.nodeToNum block (some number) }

/-- `dbuffer_pushPtr` of the postorder. -/
def VisitState.push (s : VisitState) (block : ℕ) : VisitState :=
  { s with postorder := s.postorder ++ [block] }

/-- `_visit`: the number is an `int`. -/
def visit (ir : Ir) : ℕ → VisitState → ℕ → Option VisitState
  | 0, _, _ => none
  | fuel + 1, s, block =>
      match s.nodeToNum block with
      | some _ => some s
      | none =>
          ((blockSuccessors ir block).foldlM (visit ir fuel) (s.setNumber block 0)).map fun s =>
            (s.setNumber block (toInt s.postorder.length)).push block

/-- Nothing is visited. -/
def visitStart : VisitState := ⟨fun _ => none, []⟩

/-- `dominators_getNumber`. -/
def dominatorsGetNumber (nodeToNum : ℕ → Option ℤ) (block : ℕ) : Option ℕ :=
  (nodeToNum block).map sizeOfInt

/-! ## The fixpoint -/

/-- `while (a < b) a = doms->doms[a];` -/
def climb (doms : List ℕ) (b : ℕ) : ℕ → ℕ → Option ℕ
  | 0, _ => none
  | fuel + 1, a => if a < b then (doms[a]?).bind (climb doms b fuel) else some a

/-- `intersect`. -/
def intersect (doms : List ℕ) : ℕ → ℕ → ℕ → Option ℕ
  | 0, _, _ => none
  | fuel + 1, a, b =>
      if a = b then some a
      else do
        let a ← climb doms b (fuel + 1) a
        let b ← climb doms a (fuel + 1) b
        intersect doms fuel a b

/-- The loop body over the predecessors after the first one. -/
def meetPredecessor (doms : List ℕ) (fuel newDom predBlockNum : ℕ) : Option ℕ := do
  if (← doms[predBlockNum]?) = sizeMax then return newDom
  intersect doms fuel predBlockNum newDom

/-- The new dominator of the node `i`. -/
def newDominator (ir : Ir) (nodeToNum : ℕ → Option ℤ) (postorder doms : List ℕ) (fuel i : ℕ) :
    Option ℕ := do
  let block ← postorder[i]?
  match blockPredecessors ir block with
  | [] => doms[i]?
  | predBlock :: predBlocks =>
      let newDom ← dominatorsGetNumber nodeToNum predBlock
      predBlocks.foldlM (fun newDom predBlock => do
        let predBlockNum ← dominatorsGetNumber nodeToNum predBlock
        meetPredecessor doms fuel newDom predBlockNum) newDom

/-- The loop body for the node `i`, on `doms` and `changed`. -/
def updateDominator (ir : Ir) (nodeToNum : ℕ → Option ℤ) (postorder : List ℕ) (fuel : ℕ)
    (s : List ℕ × Bool) (i : ℕ) : Option (List ℕ × Bool) := do
  let newDom ← newDominator ir nodeToNum postorder s.1 fuel i
  let oldDom ← s.1[i]?
  return (s.1.set i newDom, s.2 || oldDom ≠ newDom)

/-- The `for` loop: the indices go down from `elementCount - 1` to `0`. -/
def dominatorsRound (ir : Ir) (nodeToNum : ℕ → Option ℤ) (postorder : List ℕ)
    (elementCount fuel : ℕ) (doms : List ℕ) : Option (List ℕ × Bool) :=
  (List.range elementCount).reverse.foldlM (updateDominator ir nodeToNum postorder fuel)
    (doms, false)

/-- The `while` loop. -/
def dominatorsLoop (ir : Ir) (nodeToNum : ℕ → Option ℤ) (postorder : List ℕ)
    (elementCount fuel : ℕ) : ℕ → List ℕ → Option (List ℕ)
  | 0, _ => none
  | rounds + 1, doms => do
      let (doms, changed) ← dominatorsRound ir nodeToNum postorder elementCount fuel doms
      if changed then dominatorsLoop ir nodeToNum postorder elementCount fuel rounds doms
      else return doms

/-- The loop body that makes `i` a child of its dominator. -/
def pushChild (doms : List ℕ) (domNodes : List DomNode) (i : ℕ) : Option (List DomNode) := do
  let iDom ← doms[i]?
  if iDom = i then return domNodes
  let node ← domNodes[iDom]?
  return domNodes.set iDom { node with childs := node.childs ++ [i] }

/-- `dominators_compute`. -/
def dominatorsCompute (ir : Ir) (fuel entry : ℕ) : Option Dominators := do
  let s ← visit ir fuel visitStart entry
  let elementCount := s.postorder.length
  let doms := List.replicate elementCount sizeMax
  if elementCount = 0 then return ⟨[], doms, s.nodeToNum, s.postorder, elementCount⟩
  let doms := doms.set (elementCount - 1) (elementCount - 1)
  let doms ← dominatorsLoop ir s.nodeToNum s.postorder elementCount fuel fuel doms
  let domNodes := (List.range elementCount).map (fun i => ⟨i, []⟩)
  let domNodes ← (List.range elementCount).foldlM (pushChild doms) domNodes
  return ⟨domNodes, doms, s.nodeToNum, s.postorder, elementCount⟩

/-! ## Reading the result -/

/-- `dominators_getIDom`. -/
def dominatorsGetIDom (doms : Dominators) (block : ℕ) : Option ℕ := do
  let blockNum ← dominatorsGetNumber doms.nodeToNum block
  doms.postorder[← doms.doms[blockNum]?]?

/-- The blocks that the `dominator_child` iterator yields. -/
def dominatorChilds (doms : Dominators) (block : ℕ) : Option (List ℕ) := do
  let i ← dominatorsGetNumber doms.nodeToNum block
  let node ← doms.domNodes[i]?
  node.childs.mapM (fun child => do doms.postorder[(← doms.domNodes[child]?).number]?)

/-- Walking the `dominator_child` iterator from a block: the blocks in the order of the
visits. -/
def dominatorWalk (doms : Dominators) : ℕ → ℕ → Option (List ℕ)
  | 0, _ => none
  | fuel + 1, block => do
      let childs ← dominatorChilds doms block
      let visits ← childs.mapM (dominatorWalk doms fuel)
      return block :: visits.flatten
