/-
# The shape of the control flow graph and its numbering

`CfgShape` is the shape of the control flow graphs that `ir_creation.c` builds: the use
lists of the blocks are their incoming edges, and the oldest one comes from a block with a
larger number.  With numbers that fit in an `int`, the graph of the numbers satisfies
what the fixpoint argument assumes (`NumberedCfg.numbered`).
-/
import MCompiler.DominatorsVisit
import MCompiler.Lib.DominatorFixpoint

open FlowGraph ParentTree DominatorFixpoint

/-! ## The shape of the graph -/

/-- The use `u` is an edge to `b`: a block operand of the last instruction of a reachable
block. -/
def IsEdgeUse (ir : Ir) (entry : ℕ) (u : Use) (b : ℕ) : Prop :=
  ∃ a, Reachable (cfgEdge ir) entry a ∧ blockLastInstruction ir a = some u.inst ∧
    (ir.insts u.inst).type ≠ .phi ∧ ir.operand u = some (.block b)

/-- The graph from `entry`: the entry has no predecessor, the use list of a reachable block
holds its incoming edges, and the oldest of them comes from a block with a larger number
in the postorder. -/
structure CfgShape (ir : Ir) (entry : ℕ) : Prop where
  allocated : ∀ b, Reachable (cfgEdge ir) entry b → b < ir.blockCount
  memory : 8 * ir.blockCount < 2 ^ 64
  parent : ∀ a i, Reachable (cfgEdge ir) entry a → blockLastInstruction ir a = some i →
    (ir.insts i).parent = a
  root : ir.uses (.block entry) = []
  uses : ∀ b, Reachable (cfgEdge ir) entry b → ∀ u,
    u ∈ ir.uses (.block b) ↔ IsEdgeUse ir entry u b
  oldest : ∀ fuel s, visit ir fuel visitStart entry = some s →
    ∀ j b : ℕ, s.postorder[j]? = some b → b ≠ entry →
      ∃ i a : ℕ, (blockPredecessors ir b).head? = some a ∧ s.postorder[i]? = some a ∧ j < i

theorem useBlock_eq_some {v : Option Value} {b : ℕ} :
    useBlock v = some b ↔ v = some (.block b) := by
  constructor
  · intro h
    cases v with
    | none => cases h
    | some v =>
        cases v with
        | block b' =>
            obtain rfl := Option.some.inj h
            rfl
        | inst _ => cases h
        | const _ => cases h
  · rintro rfl
    rfl

theorem mem_blockSuccessors {ir : Ir} {a b : ℕ} : b ∈ blockSuccessors ir a ↔
    ∃ u : Use, blockLastInstruction ir a = some u.inst ∧ (ir.insts u.inst).type ≠ .phi ∧
      ir.operand u = some (.block b) := by
  have hslot : ∀ i, b ∈ (ir.insts i).uses.filterMap useBlock ↔
      ∃ k, ir.operand ⟨i, k⟩ = some (.block b) := by
    intro i
    rw [List.mem_filterMap]
    constructor
    · rintro ⟨v, hv, hb⟩
      obtain ⟨k, hk⟩ := List.mem_iff_getElem?.mp hv
      refine ⟨k, ?_⟩
      rw [Ir.operand, hk, useBlock_eq_some.mp hb]
      rfl
    · rintro ⟨k, hk⟩
      exact ⟨_, List.mem_of_getElem? (Option.join_eq_some_iff.mp hk), rfl⟩
  unfold blockSuccessors
  cases hlast : blockLastInstruction ir a with
  | none => simp
  | some i =>
      constructor
      · intro hb
        cases htype : (ir.insts i).type
        case phi => simp [htype] at hb
        all_goals
          simp only [htype] at hb
          obtain ⟨k, hk⟩ := (hslot i).mp hb
          exact ⟨⟨i, k⟩, rfl, by simp [htype], hk⟩
      · rintro ⟨⟨i', k⟩, hi, htype, hk⟩
        obtain rfl := Option.some.inj hi
        have hb := (hslot i).mpr ⟨k, hk⟩
        cases htype' : (ir.insts i).type
        case phi => exact absurd htype' htype
        all_goals simpa [htype'] using hb

/-- The use lists of the reachable blocks are their incoming edges, and no edge leads to the
entry. -/
structure UsesAreEdges (ir : Ir) (entry : ℕ) : Prop where
  parent : ∀ a i, Reachable (cfgEdge ir) entry a → blockLastInstruction ir a = some i →
    (ir.insts i).parent = a
  root : blockPredecessors ir entry = []
  uses : ∀ b, Reachable (cfgEdge ir) entry b → ∀ u,
    u ∈ ir.uses (.block b) ↔ IsEdgeUse ir entry u b

/-- The predecessors of a reachable block. -/
theorem UsesAreEdges.mem_blockPredecessors {ir : Ir} {entry a b : ℕ} (h : UsesAreEdges ir entry)
    (hb : Reachable (cfgEdge ir) entry b) :
    a ∈ blockPredecessors ir b ↔ Reachable (cfgEdge ir) entry a ∧ cfgEdge ir a b := by
  unfold blockPredecessors cfgEdge
  rw [List.mem_map]
  constructor
  · rintro ⟨u, hu, rfl⟩
    obtain ⟨a', ha', hlast, htype, hop⟩ := (h.uses b hb u).mp hu
    rw [h.parent a' _ ha' hlast]
    exact ⟨ha', mem_blockSuccessors.mpr ⟨u, hlast, htype, hop⟩⟩
  · rintro ⟨ha, hE⟩
    obtain ⟨u, hlast, htype, hop⟩ := mem_blockSuccessors.mp hE
    exact ⟨u, (h.uses b hb u).mpr ⟨a, ha, hlast, htype, hop⟩, h.parent a _ ha hlast⟩

theorem CfgShape.usesAreEdges {ir : Ir} {entry : ℕ} (h : CfgShape ir entry) :
    UsesAreEdges ir entry :=
  ⟨h.parent, by rw [blockPredecessors, h.root, List.map_nil], h.uses⟩

theorem CfgShape.mem_blockPredecessors {ir : Ir} {entry a b : ℕ} (h : CfgShape ir entry)
    (hb : Reachable (cfgEdge ir) entry b) :
    a ∈ blockPredecessors ir b ↔ Reachable (cfgEdge ir) entry a ∧ cfgEdge ir a b :=
  h.usesAreEdges.mem_blockPredecessors hb

/-! ## Numbers -/

/-- A number that fits in an `int` is read back. -/
theorem sizeOfInt_toInt {k : ℕ} (hk : k < 2 ^ 31) : sizeOfInt (toInt (k : ℤ)) = k := by
  unfold toInt sizeOfInt
  rw [Int.bmod_eq_of_le (by omega) (by omega)]
  omega

theorem IsPostorder.getNumber {ir : Ir} {entry k b : ℕ} {s : VisitState}
    (h : IsPostorder ir entry s) (hfits : s.postorder.length ≤ 2 ^ 31)
    (hk : s.postorder[k]? = some b) : dominatorsGetNumber s.nodeToNum b = some k := by
  have hlt := (List.getElem?_eq_some_iff.mp hk).1
  rw [dominatorsGetNumber, h.number k b hk, Option.map_some, sizeOfInt_toInt (by omega)]

/-- The edges between numbers. -/
def numEdge (ir : Ir) (postorder : List ℕ) (p x : ℕ) : Prop :=
  ∃ a b, postorder[p]? = some a ∧ postorder[x]? = some b ∧ cfgEdge ir a b

/-- The number of the oldest predecessor; the root is its own. -/
def oldestPredecessor (ir : Ir) (postorder : List ℕ) (x : ℕ) : ℕ :=
  ((blockPredecessors ir (postorder.getD x 0)).head?.map (postorder.idxOf ·)).getD x

/-- A numbered graph: the postorder of a graph of the right shape, with the numbers of
the blocks small enough for an `int`. -/
structure NumberedCfg (ir : Ir) (entry : ℕ) (s : VisitState) : Prop where
  shape : CfgShape ir entry
  postorder : IsPostorder ir entry s
  visited : ∃ fuel, visit ir fuel visitStart entry = some s
  fits : s.postorder.length ≤ 2 ^ 31

section Numbered

variable {ir : Ir} {entry : ℕ} {s : VisitState}

/-- The root is the last number. -/
theorem IsPostorder.getElem?_root (h : IsPostorder ir entry s) :
    s.postorder[s.postorder.length - 1]? = some entry := by
  obtain ⟨l, hl⟩ := h.entry
  rw [hl]
  simp

theorem IsPostorder.length_pos (h : IsPostorder ir entry s) : 0 < s.postorder.length := by
  obtain ⟨l, hl⟩ := h.entry
  rw [hl]
  simp

theorem IsPostorder.idxOf_eq (h : IsPostorder ir entry s) {k b : ℕ}
    (hk : s.postorder[k]? = some b) : s.postorder.idxOf b = k := by
  obtain ⟨hlt, rfl⟩ := List.getElem?_eq_some_iff.mp hk
  exact h.nodup.idxOf_getElem k hlt

theorem IsPostorder.exists_number (h : IsPostorder ir entry s) {b : ℕ}
    (hb : Reachable (cfgEdge ir) entry b) : ∃ k : ℕ, s.postorder[k]? = some b :=
  List.mem_iff_getElem?.mp ((h.mem b).mpr hb)

theorem IsPostorder.reachable (h : IsPostorder ir entry s) {k b : ℕ}
    (hk : s.postorder[k]? = some b) : Reachable (cfgEdge ir) entry b :=
  (h.mem b).mp (List.mem_of_getElem? hk)

/-- A block other than the entry has a smaller number. -/
theorem IsPostorder.lt_root (h : IsPostorder ir entry s) {k b : ℕ}
    (hk : s.postorder[k]? = some b) (hb : b ≠ entry) : k < s.postorder.length - 1 := by
  have hlt := (List.getElem?_eq_some_iff.mp hk).1
  rcases Nat.lt_or_ge k (s.postorder.length - 1) with hk' | hk'
  · exact hk'
  · rw [show k = s.postorder.length - 1 from by omega, h.getElem?_root] at hk
    exact absurd (Option.some.inj hk).symm hb

theorem IsPostorder.ne_entry (h : IsPostorder ir entry s) {k b : ℕ}
    (hk : s.postorder[k]? = some b) (hlt : k < s.postorder.length - 1) : b ≠ entry := by
  rintro rfl
  have hroot := h.idxOf_eq h.getElem?_root
  rw [h.idxOf_eq hk] at hroot
  omega

variable (h : NumberedCfg ir entry s)
include h

/-- The entry has no predecessor. -/
theorem NumberedCfg.predecessors_root : blockPredecessors ir entry = [] := by
  rw [blockPredecessors, h.shape.root]
  rfl

/-- The predecessors of the node `x`, by their numbers, the oldest first. -/
theorem NumberedCfg.predecessors {x b : ℕ} (hx : s.postorder[x]? = some b)
    (hlt : x < s.postorder.length - 1) :
    ∃ p ns bs, blockPredecessors ir b = bs ∧
      bs.map (dominatorsGetNumber s.nodeToNum) = (p :: ns).map some ∧
      p = oldestPredecessor ir s.postorder x ∧ x < p ∧
      ∀ q, q ∈ p :: ns ↔ numEdge ir s.postorder q x := by
  have hreach := h.postorder.reachable hx
  obtain ⟨fuel, hvisit⟩ := h.visited
  obtain ⟨p, a, hhead, hp, hxp⟩ := h.shape.oldest fuel s hvisit x b hx
    (h.postorder.ne_entry hx hlt)
  have hnum : ∀ c ∈ blockPredecessors ir b, ∃ k : ℕ, s.postorder[k]? = some c := fun c hc =>
    h.postorder.exists_number ((h.shape.mem_blockPredecessors hreach).mp hc).1
  have hmap : (blockPredecessors ir b).map (dominatorsGetNumber s.nodeToNum) =
      ((blockPredecessors ir b).map (s.postorder.idxOf ·)).map some := by
    rw [List.map_map]
    refine List.map_congr_left ?_
    intro c hc
    obtain ⟨k, hk⟩ := hnum c hc
    show _ = some (s.postorder.idxOf c)
    rw [h.postorder.getNumber h.fits hk, h.postorder.idxOf_eq hk]
  have hmem : ∀ q, q ∈ (blockPredecessors ir b).map (s.postorder.idxOf ·) ↔
      numEdge ir s.postorder q x := by
    intro q
    rw [List.mem_map]
    constructor
    · rintro ⟨c, hc, rfl⟩
      obtain ⟨k, hk⟩ := hnum c hc
      have hE := ((h.shape.mem_blockPredecessors hreach).mp hc).2
      exact ⟨c, b, by rw [h.postorder.idxOf_eq hk]; exact hk, hx, hE⟩
    · rintro ⟨c, b', hc, hb', hE⟩
      rw [hx] at hb'
      obtain rfl := Option.some.inj hb'
      exact ⟨c, (h.shape.mem_blockPredecessors hreach).mpr ⟨h.postorder.reachable hc, hE⟩,
        h.postorder.idxOf_eq hc⟩
  obtain ⟨cs, hcs⟩ : ∃ cs, blockPredecessors ir b = a :: cs := by
    cases hl : blockPredecessors ir b with
    | nil => rw [hl] at hhead; cases hhead
    | cons c cs =>
        rw [hl] at hhead
        exact ⟨cs, by rw [Option.some.inj hhead]⟩
  have hns : (blockPredecessors ir b).map (s.postorder.idxOf ·) =
      p :: cs.map (s.postorder.idxOf ·) := by
    rw [hcs, List.map_cons, h.postorder.idxOf_eq hp]
  rw [hns] at hmap hmem
  refine ⟨p, _, _, rfl, hmap, ?_, hxp, hmem⟩
  unfold oldestPredecessor
  rw [List.getD_eq_getElem?_getD, hx, Option.getD_some, hhead, Option.map_some, Option.getD_some,
    h.postorder.idxOf_eq hp]

/-- The numbered graph satisfies what the fixpoint argument assumes. -/
theorem NumberedCfg.numbered : Numbered (numEdge ir s.postorder) (s.postorder.length - 1)
    (oldestPredecessor ir s.postorder) := by
  have hpos := h.postorder.length_pos
  have hnode : ∀ x, x < s.postorder.length - 1 → ∃ b, s.postorder[x]? = some b := fun x hx =>
    ⟨_, List.getElem?_eq_getElem (by omega)⟩
  have hedge : ∀ x, x < s.postorder.length - 1 →
      numEdge ir s.postorder (oldestPredecessor ir s.postorder x) x ∧
        x < oldestPredecessor ir s.postorder x := by
    intro x hx
    obtain ⟨b, hb⟩ := hnode x hx
    obtain ⟨p, ns, bs, -, -, hp, hlt, hmem⟩ := h.predecessors hb hx
    rw [← hp]
    exact ⟨(hmem p).mp List.mem_cons_self, hlt⟩
  have hle : ∀ p x, numEdge ir s.postorder p x →
      p ≤ s.postorder.length - 1 ∧ x < s.postorder.length - 1 := by
    rintro p x ⟨a, b, ha, hb, hE⟩
    have hp := (List.getElem?_eq_some_iff.mp ha).1
    refine ⟨by omega, h.postorder.lt_root hb ?_⟩
    rintro rfl
    have hmem := (h.shape.mem_blockPredecessors .root).mpr ⟨h.postorder.reachable ha, hE⟩
    rw [h.predecessors_root] at hmem
    cases hmem
  refine ⟨⟨le_rfl, ?_, fun x hx => hx, ?_⟩, fun x hx => (hedge x hx).1, hle⟩
  · unfold oldestPredecessor
    rw [List.getD_eq_getElem?_getD, h.postorder.getElem?_root, Option.getD_some,
      h.predecessors_root]
    rfl
  · intro x hx hne
    obtain ⟨hE, hlt⟩ := hedge x (by omega)
    exact ⟨(hle _ _ hE).1, hlt⟩

end Numbered
