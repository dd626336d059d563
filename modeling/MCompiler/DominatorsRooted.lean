/-
# `dominators_compute` on graphs built in any order

The oldest use of a block decides where the search for its dominator begins, and
`dominators_compute` takes it without a look at `doms`.  When its number is not larger than
that of the block, `intersect` climbs to the root and never stops.

`dominatorsCompute_rooted`: on a graph with edges back to the entry and jumps created in any
order, the computation ends, is rooted at the entry and finds the immediate dominators if
every oldest use comes from a block that is listed later (`SafeOrder`); and that is needed
unless the entry itself loses its own number in the first round.
-/
import MCompiler.CfgBuilding
import MCompiler.DominatorsBackEdges
import MCompiler.DominatorsPostorder

open FlowGraph ParentTree DominatorFixpoint Runs

/-! ## What is to hold -/

/-- Following `dominators_getIDom` for `n` steps. -/
def followIDom (doms : Dominators) : ℕ → ℕ → Option ℕ
  | 0, block => some block
  | n + 1, block => (dominatorsGetIDom doms block).bind (followIDom doms n)

/-- The entry is its own dominator, following the dominators from any block leads to it, and
the dominators of the other blocks are their immediate dominators in the graph. -/
structure RootedAt (ir : Ir) (entry : ℕ) (doms : Dominators) : Prop where
  root : dominatorsGetIDom doms entry = some entry
  follow : ∀ b < ir.blockCount, ∃ n, followIDom doms n b = some entry
  idom : ∀ b < ir.blockCount, b ≠ entry → ∃ d, dominatorsGetIDom doms b = some d ∧
    IsIDom (cfgEdge ir) entry d b

/-- `dominators_compute` ends, its buffers are large enough, and its result is rooted. -/
def DominatorsRooted (ir : Ir) (entry : ℕ) : Prop :=
  ∃ fuel₀, ∀ fuel ≥ fuel₀, ∃ doms, dominatorsCompute ir fuel entry = some doms ∧
    PostorderStored doms.postorder ∧ ChildsStored doms.domNodes ∧ RootedAt ir entry doms

/-- Both computations end with the same dominators. -/
def SameDominators (ir ir' : Ir) (entry : ℕ) : Prop :=
  ∃ fuel₀, ∀ fuel ≥ fuel₀, ∃ doms doms', dominatorsCompute ir fuel entry = some doms ∧
    dominatorsCompute ir' fuel entry = some doms' ∧
    ∀ b < ir.blockCount, dominatorsGetIDom doms b = dominatorsGetIDom doms' b

/-! ## The orders for which it holds -/

/-- The oldest use of a block other than the entry comes from a block that is listed later in
the postorder. -/
def OldestUsesLater (ir : Ir) (entry : ℕ) : Prop :=
  ∀ fuel postorder, blockComputePostorder ir fuel entry = some postorder →
    ∀ j b : ℕ, postorder[j]? = some b → b ≠ entry →
      ∃ i a : ℕ, (blockPredecessors ir b).head? = some a ∧ postorder[i]? = some a ∧ j < i

/-- The entry has no uses, or its oldest one is its own jump. -/
def EntryFirst (ir : Ir) (entry : ℕ) : Prop :=
  ∀ a, (blockPredecessors ir entry).head? = some a → a = entry

/-- The buffers are large enough, the oldest uses come from blocks listed later, a jump of the
entry to itself is its oldest use, and no other block dominates all that lead back to it. -/
structure SafeOrder (ir : Ir) (entry : ℕ) : Prop where
  few : ir.blockCount ≤ 250
  childs : ∀ d, (dominatedBlocks ir entry d).ncard ≤ 16
  oldest : OldestUsesLater ir entry
  self : cfgEdge ir entry entry → (blockPredecessors ir entry).head? = some entry
  back : blockPredecessors ir entry ≠ [] → ∀ d,
    (∀ a ∈ blockPredecessors ir entry, Dominates (cfgEdge ir) entry d a) → d = entry

/-! ## The graph without edges to the entry -/

section Built

variable {ops : List BuildOp} {ir : Ir} {entry fuel : ℕ} (h : BuiltCfg ops ir entry)
include h

theorem BuiltCfg.reachable_iff {b : ℕ} : Reachable (cfgEdge ir) entry b ↔ b < ir.blockCount :=
  ⟨h.lt_blockCount, h.reachable b⟩

theorem BuiltCfg.ncard_reachable : {b | Reachable (cfgEdge ir) entry b}.ncard = ir.blockCount := by
  have hset : {b | Reachable (cfgEdge ir) entry b} = (Finset.range ir.blockCount : Set ℕ) := by
    ext b
    rw [Set.mem_ofPred_eq, h.reachable_iff, Finset.coe_range, Set.mem_Iio]
  rw [hset, Set.ncard_coe_finset, Finset.card_range]

theorem BuiltCfg.reachable_of_mem {a b : ℕ} (ha : a ∈ blockPredecessors ir b) :
    Reachable (cfgEdge ir) entry a := by
  obtain ⟨u, hu, rfl⟩ := List.mem_map.mp ha
  obtain ⟨a, ha, hlast, -⟩ := h.mem_uses.mp hu
  rwa [h.parent hlast]

/-- The visit from the entry, and the postorder that `block_computePostorder` gives. -/
theorem BuiltCfg.exists_visit (hfuel : ir.blockCount < fuel) :
    ∃ s, visit ir fuel visitStart entry = some s ∧ IsPostorder ir entry s ∧
      blockComputePostorder ir fuel entry = some s.postorder ∧
      s.postorder.length = ir.blockCount := by
  obtain ⟨s, hs⟩ := visit_entry_succeeds (fun _ => h.lt_blockCount) hfuel
  have hpost := visit_postorder hs
  refine ⟨s, hs, hpost, blockComputePostorder_eq hs, ?_⟩
  rw [← hpost.ncard_reachable, h.ncard_reachable]

/-- Without the edges to the entry the graph has the shape that the fixpoint needs. -/
theorem BuiltCfg.cfgShape (hfew : ir.blockCount ≤ 250) (holdest : OldestUsesLater ir entry) :
    CfgShape (ir.withoutEdgesTo entry) entry where
  allocated := fun b hb => h.lt_blockCount (reachable_withoutEdgesTo.mp hb)
  memory := by
    show 8 * ir.blockCount < 2 ^ 64
    omega
  parent := fun a i _ hlast => h.parent hlast
  root := if_pos rfl
  uses := by
    intro b _ u
    have hedge : IsEdgeUse (ir.withoutEdgesTo entry) entry u b ↔
        b ≠ entry ∧ IsEdgeUse ir entry u b := by
      unfold IsEdgeUse
      simp only [reachable_withoutEdgesTo, operand_withoutEdgesTo]
      constructor
      · rintro ⟨a, ha, hlast, htype, hop⟩
        split at hop
        · cases hop
        · rename_i hne
          refine ⟨?_, a, ha, hlast, htype, hop⟩
          rintro rfl
          exact hne hop
      · rintro ⟨hne, a, ha, hlast, htype, hop⟩
        refine ⟨a, ha, hlast, htype, ?_⟩
        rw [if_neg, hop]
        rw [hop]
        rintro ⟨⟩
        exact hne rfl
    rw [hedge]
    by_cases hb : b = entry
    · have hnone : (ir.withoutEdgesTo entry).uses (.block b) = [] := if_pos (by rw [hb])
      rw [hnone]
      simp [hb]
    · have hsame : (ir.withoutEdgesTo entry).uses (.block b) = ir.uses (.block b) := by
        apply if_neg
        rintro ⟨⟩
        exact hb rfl
      rw [hsame, h.mem_uses]
      simp [hb]
  oldest := by
    intro fuel s hs j b hj hb
    -- both graphs have one postorder, whatever the number of steps
    obtain ⟨s', hs', -, hpostorder, -⟩ :=
      h.exists_visit (show ir.blockCount < max fuel (ir.blockCount + 1) by omega)
    have hcut := visit_mono (Nat.le_max_left fuel (ir.blockCount + 1)) _ _ _ hs
    obtain rfl := Option.some.inj (hcut.symm.trans (visit_entry_withoutEdgesTo hs'))
    obtain ⟨i, a, hhead, hi, hji⟩ := holdest _ _ hpostorder j b hj hb
    refine ⟨i, a, ?_, hi, hji⟩
    rwa [blockPredecessors_withoutEdgesTo hb]

/-- A jump of the entry to itself, in terms of numbers. -/
theorem BuiltCfg.self_first {s : VisitState} (hpost : IsPostorder ir entry s)
    (hself : cfgEdge ir entry entry → (blockPredecessors ir entry).head? = some entry) (n : ℕ)
    (ns : List ℕ) (hns : backNumbers ir entry s = n :: ns)
    (hmem : s.postorder.length - 1 ∈ ns) : n = s.postorder.length - 1 := by
  have hroot := hpost.idxOf_eq hpost.getElem?_root
  have hback : s.postorder.length - 1 ∈ backNumbers ir entry s := by
    rw [hns]
    exact List.mem_cons_of_mem _ hmem
  obtain ⟨a, ha, hidx⟩ := List.mem_map.mp hback
  obtain ⟨k, hk⟩ := hpost.exists_number (h.reachable_of_mem ha)
  rw [hpost.idxOf_eq hk] at hidx
  rw [hidx, hpost.getElem?_root] at hk
  obtain rfl := Option.some.inj hk
  have hhead := hself (h.mem_blockPredecessors.mp ha)
  have hfirst : (backNumbers ir entry s).head? = some (s.postorder.length - 1) := by
    unfold backNumbers
    rw [List.head?_map, hhead, Option.map_some, hroot]
  rw [hns] at hfirst
  exact Option.some.inj hfirst

/-- **What the computation finds**: on the graph without the edges to the entry it is right;
on the graph itself the array has the same dominators, except that of the entry. -/
theorem BuiltCfg.exists_computed (hfew : ir.blockCount ≤ 250) (holdest : OldestUsesLater ir entry)
    (hself : cfgEdge ir entry entry → (blockPredecessors ir entry).head? = some entry)
    (hfuel : 2 * (ir.blockCount * ir.blockCount) + 2 * ir.blockCount + 2 < fuel) :
    ∃ doms x, ComputedDominators (ir.withoutEdgesTo entry) entry doms ∧
      visit ir fuel visitStart entry = some ⟨doms.nodeToNum, doms.postorder⟩ ∧
      dominatorsLoop ir doms.nodeToNum doms.postorder doms.postorder.length fuel fuel
        (startArray doms.postorder.length) =
          some (doms.doms.set (doms.postorder.length - 1) x) ∧
      IsRootMeet ir entry ⟨doms.nodeToNum, doms.postorder⟩ doms.doms x := by
  obtain ⟨s, hs, hpost, -, hlen⟩ := h.exists_visit (show ir.blockCount < fuel from by omega)
  have hcut := visit_entry_withoutEdgesTo hs
  have hnum : NumberedCfg (ir.withoutEdgesTo entry) entry s :=
    ⟨h.cfgShape hfew holdest, visit_postorder hcut, ⟨fuel, hcut⟩, by omega⟩
  have hsquare : (s.postorder.length - 1) * (s.postorder.length - 1) ≤
      ir.blockCount * ir.blockCount := Nat.mul_le_mul (by omega) (by omega)
  obtain ⟨doms, x, hloop, hfix, hmeet⟩ := hnum.dominatorsLoop_start
    (fun a ha => h.reachable_of_mem ha) (show 2 * s.postorder.length < fuel by omega)
    (h.self_first hpost hself) (show _ < fuel by omega)
  exact ⟨⟨nodesBelow doms s.postorder.length s.postorder.length, doms, s.nodeToNum, s.postorder,
    s.postorder.length⟩, x, ⟨hnum, hfix, rfl, rfl⟩, hs, hloop, hmeet⟩

end Built

/-! ## The dominator of the entry -/

section Root

variable {ir : Ir} {entry x : ℕ} {doms : Dominators}

/-- Ancestors are dominators in the graph with all edges. -/
theorem ComputedDominators.ancestor_iff (h : ComputedDominators (ir.withoutEdgesTo entry) entry doms)
    {j k a b : ℕ} (hj : doms.postorder[j]? = some a) (hk : doms.postorder[k]? = some b) :
    Ancestor (parentOf doms.doms) j k ↔ Dominates (cfgEdge ir) entry b a := by
  have hlt := (List.getElem?_eq_some_iff.mp hj).1
  rw [← dominates_withoutEdgesTo, ← h.dominates_iff hk hj]
  apply h.fixpoint.inv.inv.ancestor_iff h.numbered.numbered h.fixpoint.fix
  have hlt' : j < doms.postorder.length := hlt
  show j ≤ doms.postorder.length - 1
  omega

/-- The entry is its own dominator if and only if no other block dominates all that lead back
to it. -/
theorem ComputedDominators.rootMeet_iff
    (h : ComputedDominators (ir.withoutEdgesTo entry) entry doms)
    (hback : ∀ a ∈ blockPredecessors ir entry, Reachable (cfgEdge ir) entry a)
    (hmeet : IsRootMeet ir entry ⟨doms.nodeToNum, doms.postorder⟩ doms.doms x) :
    x = doms.postorder.length - 1 ↔ (blockPredecessors ir entry ≠ [] → ∀ d,
      (∀ a ∈ blockPredecessors ir entry, Dominates (cfgEdge ir) entry d a) → d = entry) := by
  have hpost := h.numbered.postorder
  have hroot : doms.postorder[doms.postorder.length - 1]? = some entry := hpost.getElem?_root
  have hpos : 0 < doms.postorder.length := hpost.length_pos
  have hnil : backNumbers ir entry ⟨doms.nodeToNum, doms.postorder⟩ = [] ↔
      blockPredecessors ir entry = [] := List.map_eq_nil_iff
  -- the numbers of the blocks that lead back
  have hnumber : ∀ a ∈ blockPredecessors ir entry, ∃ k : ℕ, doms.postorder[k]? = some a ∧
      k ∈ backNumbers ir entry ⟨doms.nodeToNum, doms.postorder⟩ := by
    intro a ha
    obtain ⟨k, hk⟩ := hpost.exists_number (reachable_withoutEdgesTo.mpr (hback a ha))
    refine ⟨k, hk, List.mem_map.mpr ⟨a, ha, hpost.idxOf_eq hk⟩⟩
  constructor
  · rintro rfl hne d hd
    obtain ⟨a, ha⟩ := List.exists_mem_of_ne_nil _ hne
    have hreach := (hd a ha).reachable (hback a ha)
    obtain ⟨y, hy⟩ := hpost.exists_number (reachable_withoutEdgesTo.mpr hreach)
    have hanc : Ancestor (parentOf doms.doms) (doms.postorder.length - 1) y := by
      apply hmeet.nearest (fun hns => hne (hnil.mp hns))
      intro n hn
      obtain ⟨c, hc, rfl⟩ := List.mem_map.mp hn
      obtain ⟨k, hk, -⟩ := hnumber c hc
      have hidx : doms.postorder.idxOf c = k := hpost.idxOf_eq hk
      show Ancestor (parentOf doms.doms) (doms.postorder.idxOf c) y
      rw [hidx]
      exact (h.ancestor_iff hk hy).mpr (hd c hc)
    have hyroot : y = doms.postorder.length - 1 := h.fixpoint.inv.inv.climbs.eq_root hanc
    rw [hyroot, hroot] at hy
    exact (Option.some.inj hy).symm
  · intro hall
    by_cases hne : blockPredecessors ir entry = []
    · exact hmeet.nil (hnil.mpr hne)
    · have hle : x ≤ doms.postorder.length - 1 := hmeet.le
      have hx : doms.postorder[x]? = some doms.postorder[x] := List.getElem?_eq_getElem (by omega)
      have hd : doms.postorder[x] = entry := by
        apply hall hne
        intro a ha
        obtain ⟨k, hk, hmem⟩ := hnumber a ha
        exact (h.ancestor_iff hk hx).mp (hmeet.common k hmem)
      rw [hd] at hx
      have hidx : doms.postorder.idxOf entry = x := hpost.idxOf_eq hx
      have hidx' : doms.postorder.idxOf entry = doms.postorder.length - 1 := hpost.idxOf_eq hroot
      omega

end Root

/-! ## Safe orders -/

/-- Following the dominators goes up the tree. -/
theorem ComputedDominators.followIDom_of_ancestor {ir : Ir} {entry j k b : ℕ} {doms : Dominators}
    (h : ComputedDominators ir entry doms) (hb : doms.postorder[j]? = some b)
    (hanc : Ancestor (parentOf doms.doms) j k) : ∃ n, followIDom doms n b = doms.postorder[k]? := by
  induction hanc generalizing b with
  | refl j => exact ⟨0, hb.symm⟩
  | @up j k _ ih =>
      have hlt : j < doms.postorder.length := (List.getElem?_eq_some_iff.mp hb).1
      have hparent : parentOf doms.doms j < doms.postorder.length :=
        h.fixpoint.parent_lt h.numbered.postorder j hlt
      obtain ⟨n, hn⟩ := ih (List.getElem?_eq_getElem hparent)
      refine ⟨n + 1, ?_⟩
      show (dominatorsGetIDom doms b).bind (followIDom doms n) = _
      rw [h.getIDom_eq hb, List.getElem?_eq_getElem hparent, Option.bind_some, hn]

/-- When the entry keeps its number, the computation gives the dominators of the graph without
the edges to the entry. -/
theorem ComputedDominators.compute_of_root {ir : Ir} {entry fuel : ℕ} {doms : Dominators}
    (hcomp : ComputedDominators (ir.withoutEdgesTo entry) entry doms)
    (hs : visit ir fuel visitStart entry = some ⟨doms.nodeToNum, doms.postorder⟩)
    (hloop : dominatorsLoop ir doms.nodeToNum doms.postorder doms.postorder.length fuel fuel
      (startArray doms.postorder.length) = some (doms.doms.set (doms.postorder.length - 1)
        (doms.postorder.length - 1))) :
    dominatorsCompute ir fuel entry = some doms := by
  have hpost := hcomp.numbered.postorder
  have hpos : 0 < doms.postorder.length := hpost.length_pos
  have hlen : doms.doms.length = doms.postorder.length := hcomp.fixpoint.inv.length
  have hfix : parentOf doms.doms (doms.postorder.length - 1) = doms.postorder.length - 1 :=
    hcomp.fixpoint.inv.inv.climbs.fix
  have hlt : doms.postorder.length - 1 < doms.doms.length := by omega
  have hget := getElem?_eq_parentOf hlt
  rw [hfix, List.getElem?_eq_getElem hlt] at hget
  have hset : doms.doms.set (doms.postorder.length - 1) (doms.postorder.length - 1) = doms.doms := by
    conv_rhs => rw [← List.set_getElem_self hlt, Option.some.inj hget]
  rw [hset] at hloop
  rw [dominatorsCompute_of_loop hs hloop hlen (hcomp.fixpoint.parent_lt hpost), ← hcomp.nodes,
    ← hcomp.count]

section Safe

variable {ops : List BuildOp} {ir : Ir} {entry fuel : ℕ} (h : BuiltCfg ops ir entry)
include h

/-- The result is rooted. -/
theorem BuiltCfg.rootedAt {doms : Dominators}
    (hcomp : ComputedDominators (ir.withoutEdgesTo entry) entry doms) : RootedAt ir entry doms := by
  have hpost := hcomp.numbered.postorder
  have hroot : doms.postorder[doms.postorder.length - 1]? = some entry := hpost.getElem?_root
  have hnumber : ∀ b < ir.blockCount, ∃ j : ℕ, doms.postorder[j]? = some b := fun b hb =>
    hpost.exists_number (reachable_withoutEdgesTo.mpr (h.reachable b hb))
  refine ⟨hcomp.getIDom_entry, ?_, ?_⟩
  · intro b hb
    obtain ⟨j, hj⟩ := hnumber b hb
    have hlt : j < doms.postorder.length := (List.getElem?_eq_some_iff.mp hj).1
    rw [← hroot]
    apply hcomp.followIDom_of_ancestor hj
    apply hcomp.fixpoint.inv.inv.climbs.ancestor_root
    exact ⟨Nat.zero_le j, show j ≤ doms.postorder.length - 1 by omega⟩
  · intro b hb hne
    obtain ⟨j, hj⟩ := hnumber b hb
    obtain ⟨d, hd, hidom⟩ := hcomp.isIDom hj hne
    exact ⟨d, (hcomp.getIDom_eq hj).trans hd, isIDom_withoutEdgesTo.mp hidom⟩

/-- **Safe orders are enough.** -/
theorem BuiltCfg.rooted_of_safeOrder (hsafe : SafeOrder ir entry)
    (hfuel : 2 * (ir.blockCount * ir.blockCount) + 2 * ir.blockCount + 2 < fuel) :
    ∃ doms, dominatorsCompute ir fuel entry = some doms ∧ PostorderStored doms.postorder ∧
      ChildsStored doms.domNodes ∧ RootedAt ir entry doms := by
  obtain ⟨doms, x, hcomp, hs, hloop, hmeet⟩ :=
    h.exists_computed hsafe.few hsafe.oldest hsafe.self hfuel
  have hx := (hcomp.rootMeet_iff (fun a ha => h.reachable_of_mem ha) hmeet).mpr hsafe.back
  rw [hx] at hloop
  refine ⟨doms, hcomp.compute_of_root hs hloop, ?_, ?_, h.rootedAt hcomp⟩
  · apply (postorderStored_iff _).mpr
    have hlen := (visit_postorder hs).ncard_reachable
    rw [h.ncard_reachable] at hlen
    exact hlen.symm.le.trans hsafe.few
  · apply hcomp.childsStored_iff.mpr
    intro d
    rw [dominatedBlocks_withoutEdgesTo]
    exact hsafe.childs d

end Safe

/-! ## Loops that do not end -/

section Endless

variable {doms : List ℕ} {r m a c : ℕ} (hlen : doms.length = r + 1) (hr : r < 2 ^ 31)
  (htree : DomTree doms r m) (hma : m ≤ a) (har : a ≤ r)
include hlen hr htree hma har

/-- The way up the tree never gets to `SIZE_MAX`. -/
theorem climb_sizeMax (fuel : ℕ) : climb doms sizeMax fuel a = none := by
  induction fuel generalizing a with
  | zero => rfl
  | succ fuel ih =>
      have hparent := htree.closed ⟨hma, har⟩
      have hlt : a < sizeMax := by
        unfold sizeMax
        omega
      unfold climb
      rw [if_pos hlt, getElem?_eq_parentOf (by omega), Option.bind_some]
      exact ih hparent.1 hparent.2

/-- `intersect` with a node that has no dominator yet. -/
theorem intersect_unset (hcm : c < m) (hunset : doms[c]? = some sizeMax) (fuel : ℕ) :
    intersect doms fuel a c = none := by
  cases fuel with
  | zero => rfl
  | succ fuel =>
      have hlarge : a < sizeMax := by
        unfold sizeMax
        omega
      have hup : climb doms c (fuel + 1) a = some a := by
        unfold climb
        rw [if_neg (by omega)]
      unfold intersect
      rw [if_neg (by omega), hup, Option.bind_eq_bind, Option.bind_some]
      unfold climb
      rw [if_pos (by omega), hunset, Option.bind_some]
      cases fuel with
      | zero => rfl
      | succ fuel =>
          have htop : climb doms a (fuel + 1) sizeMax = some sizeMax := by
            unfold climb
            rw [if_neg (by omega)]
          rw [htop, Option.bind_some]
          unfold intersect
          rw [if_neg (by omega), climb_sizeMax hlen hr htree hma har]
          rfl

omit hma har in
/-- The loop over the predecessors, when it starts from a node without a dominator and meets
one that has one. -/
theorem meetPredecessors_unset (hunset : ∀ x, x < m → doms[x]? = some sizeMax) (hcm : c < m)
    (fuel : ℕ) (ns : List ℕ) (hns : ∀ p ∈ ns, p ≤ r) (hset : ∃ p ∈ ns, m ≤ p) :
    ns.foldlM (meetPredecessor doms fuel) c = none := by
  induction ns with
  | nil =>
      obtain ⟨p, hp, -⟩ := hset
      cases hp
  | cons p ns ih =>
      have hpr := hns p List.mem_cons_self
      rw [List.foldlM_cons]
      unfold meetPredecessor
      by_cases hpm : m ≤ p
      · have hval := (htree.closed ⟨hpm, hpr⟩).2
        have hne : parentOf doms p ≠ sizeMax := by
          unfold sizeMax
          omega
        rw [getElem?_eq_parentOf (by omega), Option.bind_eq_bind, Option.bind_some, if_neg hne,
          intersect_unset hlen hr htree hpm hpr hcm (hunset c hcm)]
        rfl
      · rw [hunset p (Nat.lt_of_not_le hpm), Option.bind_eq_bind, Option.bind_some, if_pos rfl]
        apply ih fun q hq => hns q (List.mem_cons_of_mem _ hq)
        obtain ⟨q, hq, hmq⟩ := hset
        rcases List.mem_cons.mp hq with rfl | hq
        · exact absurd hmq hpm
        · exact ⟨q, hq, hmq⟩

end Endless

/-! ## Safe orders are needed -/

/-- Only the entry has a dominator at first. -/
theorem domTree_start {n : ℕ} (hn : 0 < n) : DomTree (startArray n) (n - 1) (n - 1) := by
  have hfix : parentOf (startArray n) (n - 1) = n - 1 := by
    rw [parentOf_set (by rw [List.length_replicate]; omega), Function.update_self]
  have hinv : DominatorFixpoint.Inv (fun _ _ => False) _ id _ _ _ :=
    DominatorFixpoint.inv_start hfix
  exact hinv.climbs

theorem startArray_unset {n x : ℕ} (hx : x < n - 1) : (startArray n)[x]? = some sizeMax := by
  rw [List.getElem?_set_ne (by omega), List.getElem?_replicate, if_pos (by omega)]

section Needed

variable {ops : List BuildOp} {ir : Ir} {entry fuel : ℕ} {s : VisitState} (h : BuiltCfg ops ir entry)
include h

theorem BuiltCfg.newDominator_eq (hpost : IsPostorder ir entry s)
    (hfits : s.postorder.length ≤ 2 ^ 31) {j b : ℕ} (hj : s.postorder[j]? = some b)
    (array : List ℕ) :
    newDominator ir s.nodeToNum s.postorder array fuel j =
      match (blockPredecessors ir b).map (s.postorder.idxOf ·) with
      | [] => array[j]?
      | n :: ns => ns.foldlM (meetPredecessor array fuel) n :=
  hpost.newDominator_eq hfits hj (fun _ ha => h.reachable_of_mem ha) array fuel

theorem BuiltCfg.number_lt (hpost : IsPostorder ir entry s) {b n : ℕ}
    (hn : n ∈ (blockPredecessors ir b).map (s.postorder.idxOf ·)) : n ≤ s.postorder.length - 1 := by
  obtain ⟨a, ha, rfl⟩ := List.mem_map.mp hn
  obtain ⟨k, hk⟩ := hpost.exists_number (h.reachable_of_mem ha)
  have hlt := (List.getElem?_eq_some_iff.mp hk).1
  rw [hpost.idxOf_eq hk]
  omega

/-- In the first round a block whose oldest use comes from itself or a block listed earlier
makes the loop endless. -/
theorem BuiltCfg.round_unsafe (hs : visit ir fuel visitStart entry = some s)
    (hfits : s.postorder.length ≤ 2 ^ 31) (hfuel : 2 * s.postorder.length < fuel) (k : ℕ) :
    ∀ doms changed, k ≤ s.postorder.length - 1 → doms.length = s.postorder.length →
      DomTree doms (s.postorder.length - 1) k → (∀ x, x < k → doms[x]? = some sizeMax) →
      (∃ j b n : ℕ, j < k ∧ s.postorder[j]? = some b ∧
        ((blockPredecessors ir b).map (s.postorder.idxOf ·)).head? = some n ∧ n ≤ j) →
      (List.range k).reverse.foldlM (updateDominator ir s.nodeToNum s.postorder fuel)
        (doms, changed) = none := by
  have hpost := visit_postorder hs
  have hpos := hpost.length_pos
  induction k with
  | zero =>
      rintro doms changed - - - - ⟨j, b, n, hj, -⟩
      omega
  | succ k ih =>
      rintro doms changed hk hlen htree hunset ⟨j, b', n', hj, hb', hn', hnj⟩
      have hb : s.postorder[k]? = some s.postorder[k] := List.getElem?_eq_getElem (by omega)
      obtain ⟨i, a, hki, hi, hE⟩ := exists_later_predecessor hs hb (hpost.ne_entry hb (by omega))
      have hmem : i ∈ (blockPredecessors ir s.postorder[k]).map (s.postorder.idxOf ·) :=
        List.mem_map.mpr ⟨a, h.mem_blockPredecessors.mpr hE, hpost.idxOf_eq hi⟩
      have hle : ∀ p ∈ (blockPredecessors ir s.postorder[k]).map (s.postorder.idxOf ·),
          p ≤ s.postorder.length - 1 := fun p hp => h.number_lt hpost hp
      have hnew : newDominator ir s.nodeToNum s.postorder doms fuel k = _ :=
        h.newDominator_eq hpost hfits hb doms
      rw [List.range_succ, List.reverse_append, List.reverse_singleton, List.singleton_append,
        List.foldlM_cons]
      cases hns : (blockPredecessors ir s.postorder[k]).map (s.postorder.idxOf ·) with
      | nil =>
          rw [hns] at hmem
          cases hmem
      | cons n ns =>
          rw [hns] at hmem hle hnew
          have hrest : ∀ p ∈ ns, p ≤ s.postorder.length - 1 := fun p hp =>
            hle p (List.mem_cons_of_mem _ hp)
          by_cases hnk : n ≤ k
          · -- the search starts from a block without a dominator
            have hset : ∃ p ∈ ns, k + 1 ≤ p := by
              rcases List.mem_cons.mp hmem with rfl | hmem
              · omega
              · exact ⟨i, hmem, hki⟩
            have hnone := meetPredecessors_unset (by omega) (by omega) htree hunset
              (show n < k + 1 by omega) fuel ns hrest hset
            unfold updateDominator
            rw [hnew]
            dsimp only
            rw [hnone]
            rfl
          · obtain ⟨c, hc, hanc, -⟩ := meetPredecessors_spec (by omega) htree fuel (by omega)
              (by omega) hunset ns hrest n (by omega) (hle n List.mem_cons_self)
            obtain ⟨hmemc, -⟩ :=
              htree.ancestor_mem ⟨by omega, hle n List.mem_cons_self⟩ hanc
            have hklen : k < doms.length := by omega
            have hstep : updateDominator ir s.nodeToNum s.postorder fuel (doms, changed) k =
                some (doms.set k c, changed || doms[k]? ≠ some c) := by
              unfold updateDominator
              rw [hnew]
              dsimp only
              rw [hc, getElem?_eq_parentOf hklen]
              simp
            rw [hstep]
            apply ih
            · omega
            · rw [List.length_set, hlen]
            · refine ⟨⟨hk.trans' (Nat.le_succ k), le_rfl⟩, ?_, fun x hx => hx.2, ?_⟩
              · rw [parentOf_set hklen, Function.update_of_ne (by omega)]
                exact htree.fix
              · intro x hx hne
                rw [parentOf_set hklen]
                by_cases hxk : x = k
                · rw [hxk, Function.update_self]
                  exact ⟨⟨by omega, hmemc.2⟩, by omega⟩
                · rw [Function.update_of_ne hxk]
                  obtain ⟨hd, hlt⟩ := htree.up x ⟨by omega, hx.2⟩ hne
                  exact ⟨⟨by omega, hd.2⟩, hlt⟩
            · intro x hx
              rw [List.getElem?_set_ne (by omega)]
              exact hunset x (by omega)
            · refine ⟨j, b', n', ?_, hb', hn', hnj⟩
              apply Nat.lt_of_le_of_ne (Nat.le_of_lt_succ hj)
              rintro rfl
              rw [hb] at hb'
              obtain rfl := Option.some.inj hb'
              rw [hns] at hn'
              obtain rfl := Option.some.inj hn'
              exact hnk hnj

omit h in
/-- A loop that ends has found a dominator of the entry, and has gone through the other
blocks. -/
theorem loop_inv (hpost : IsPostorder ir entry s) {rounds : ℕ} {doms array : List ℕ}
    (hloop : dominatorsLoop ir s.nodeToNum s.postorder s.postorder.length fuel rounds doms =
      some array) :
    ∃ x changed r, newDominator ir s.nodeToNum s.postorder doms fuel (s.postorder.length - 1) =
        some x ∧
      (List.range (s.postorder.length - 1)).reverse.foldlM
        (updateDominator ir s.nodeToNum s.postorder fuel)
        (doms.set (s.postorder.length - 1) x, changed) = some r := by
  have hpos := hpost.length_pos
  cases rounds with
  | zero => cases hloop
  | succ rounds =>
      obtain ⟨r, hround, -⟩ := Option.bind_eq_some_iff.mp hloop
      unfold dominatorsRound at hround
      rw [Loop.reverse_range hpos] at hround
      obtain ⟨⟨array', changed⟩, hupdate, hrest⟩ := Option.bind_eq_some_iff.mp hround
      obtain ⟨x, hx, hupdate⟩ := Option.bind_eq_some_iff.mp hupdate
      obtain ⟨old, -, hupdate⟩ := Option.bind_eq_some_iff.mp hupdate
      obtain ⟨rfl, rfl⟩ := Prod.mk.inj (Option.some.inj hupdate)
      exact ⟨x, _, r, hx, hrest⟩

theorem BuiltCfg.few_of_rooted (hrooted : DominatorsRooted ir entry) : ir.blockCount ≤ 250 := by
  obtain ⟨fuel₀, hall⟩ := hrooted
  obtain ⟨doms, hdoms, hstored, -⟩ := hall fuel₀ le_rfl
  rw [← h.ncard_reachable, length_postorder hdoms]
  exact (postorderStored_iff _).mp hstored

/-- In the first round the entry keeps its number. -/
theorem BuiltCfg.root_first_round (hpost : IsPostorder ir entry s)
    (hfits : s.postorder.length ≤ 2 ^ 31) (hfuel : 2 * s.postorder.length < fuel)
    (hfirst : EntryFirst ir entry) :
    newDominator ir s.nodeToNum s.postorder (startArray s.postorder.length) fuel
      (s.postorder.length - 1) = some (s.postorder.length - 1) := by
  have hpos := hpost.length_pos
  have htree := domTree_start hpos
  have hlength : (startArray s.postorder.length).length = s.postorder.length := by
    rw [List.length_set, List.length_replicate]
  have hle : ∀ p ∈ (blockPredecessors ir entry).map (s.postorder.idxOf ·),
      p ≤ s.postorder.length - 1 := fun p hp => h.number_lt hpost hp
  rw [h.newDominator_eq hpost hfits hpost.getElem?_root]
  cases hpreds : blockPredecessors ir entry with
  | nil =>
      show (startArray s.postorder.length)[s.postorder.length - 1]? = _
      rw [getElem?_eq_parentOf (by omega), htree.fix]
  | cons a as =>
      -- the nearest common ancestor of the entry and anything is the entry
      obtain rfl : a = entry := hfirst a (by rw [hpreds]; rfl)
      rw [hpreds] at hle
      have hroot := hpost.idxOf_eq hpost.getElem?_root
      obtain ⟨c, hc, hanc, -⟩ := meetPredecessors_spec (by omega) htree fuel (by omega) (by omega)
        (fun x hx => startArray_unset hx) (as.map (s.postorder.idxOf ·))
        (fun p hp => hle p (List.mem_cons_of_mem _ hp)) _ (le_refl (s.postorder.length - 1)) le_rfl
      show (as.map (s.postorder.idxOf ·)).foldlM _ (s.postorder.idxOf a) = _
      rw [hroot, hc, htree.eq_root hanc]

/-- **The oldest uses have to come from blocks listed later**, when the entry keeps its number
in the first round. -/
theorem BuiltCfg.oldest_of_rooted (hfirst : EntryFirst ir entry)
    (hrooted : DominatorsRooted ir entry) : OldestUsesLater ir entry := by
  have hfew := h.few_of_rooted hrooted
  obtain ⟨fuel₀, hall⟩ := hrooted
  intro fuel postorder hpostorder j b hj hb
  obtain ⟨s, hs, rfl⟩ := blockComputePostorder_eq_some.mp hpostorder
  have hpost := visit_postorder hs
  have hlen : s.postorder.length = ir.blockCount := by
    rw [← hpost.ncard_reachable, h.ncard_reachable]
  have hpos := hpost.length_pos
  have hroot := hpost.idxOf_eq hpost.getElem?_root
  have hjr := hpost.lt_root hj hb
  have hfits : s.postorder.length ≤ 2 ^ 31 := by omega
  -- the oldest use comes from some block
  obtain ⟨i, a, hji, hi, hE⟩ := exists_later_predecessor hs hj hb
  obtain ⟨c, hc⟩ : ∃ c, (blockPredecessors ir b).head? = some c := by
    cases hpreds : blockPredecessors ir b with
    | nil =>
        have hmem := h.mem_blockPredecessors.mpr hE
        rw [hpreds] at hmem
        cases hmem
    | cons c bs => exact ⟨c, rfl⟩
  obtain ⟨k, hk⟩ := hpost.exists_number (h.reachable_of_mem (List.mem_of_head? hc))
  refine ⟨k, c, hc, hk, ?_⟩
  by_contra hkj
  obtain ⟨n, hfuel₀, hfuel, hlarge⟩ : ∃ n, fuel₀ ≤ n ∧ fuel ≤ n ∧ 2 * s.postorder.length < n :=
    ⟨max fuel₀ (max fuel (2 * s.postorder.length + 1)), by omega, by omega, by omega⟩
  obtain ⟨doms, hdoms, -⟩ := hall n hfuel₀
  have hvisit := visit_mono hfuel _ _ _ hs
  obtain ⟨-, hloop⟩ := dominatorsCompute_loop hvisit hdoms
  obtain ⟨x, changed, r, hx, hrest⟩ := loop_inv hpost hloop
  rw [h.root_first_round hpost hfits hlarge hfirst] at hx
  obtain rfl := Option.some.inj hx
  have hset : (startArray s.postorder.length).set (s.postorder.length - 1)
      (s.postorder.length - 1) = startArray s.postorder.length := List.set_set ..
  rw [hset, h.round_unsafe hvisit hfits hlarge _ _ _ le_rfl
    (by rw [List.length_set, List.length_replicate]) (domTree_start hpos)
    (fun x hx => startArray_unset hx) ⟨j, b, k, hjr, hj, ?_, Nat.le_of_not_lt hkj⟩] at hrest
  · cases hrest
  · rw [List.head?_map, hc, Option.map_some, hpost.idxOf_eq hk]

/-- A jump of the entry to itself has to be its oldest use. -/
theorem BuiltCfg.self_of_rooted (hrooted : DominatorsRooted ir entry)
    (hself : cfgEdge ir entry entry) : (blockPredecessors ir entry).head? = some entry := by
  have hfew := h.few_of_rooted hrooted
  obtain ⟨fuel₀, hall⟩ := hrooted
  obtain ⟨n, hfuel₀, hlarge⟩ : ∃ n, fuel₀ ≤ n ∧ ir.blockCount < n :=
    ⟨max fuel₀ (ir.blockCount + 1), by omega, by omega⟩
  obtain ⟨s, hs, hpost, -, hlen⟩ := h.exists_visit hlarge
  have hpos := hpost.length_pos
  have hfits : s.postorder.length ≤ 2 ^ 31 := by omega
  have hroot := hpost.idxOf_eq hpost.getElem?_root
  have hmem := h.mem_blockPredecessors.mpr hself
  by_contra hne
  obtain ⟨doms, hdoms, -⟩ := hall n hfuel₀
  obtain ⟨-, hloop⟩ := dominatorsCompute_loop hs hdoms
  obtain ⟨x, changed, r, hx, -⟩ := loop_inv hpost hloop
  have hle : ∀ p ∈ (blockPredecessors ir entry).map (s.postorder.idxOf ·),
      p ≤ s.postorder.length - 1 := fun p hp => h.number_lt hpost hp
  rw [h.newDominator_eq hpost hfits hpost.getElem?_root] at hx
  cases hpreds : blockPredecessors ir entry with
  | nil =>
      rw [hpreds] at hmem
      cases hmem
  | cons a as =>
      rw [hpreds] at hx hmem hle hne
      have ha : a ≠ entry := fun ha => hne (congrArg some ha)
      obtain ⟨k, hk⟩ := hpost.exists_number
        (h.reachable_of_mem (a := a) (b := entry) (by rw [hpreds]; exact List.mem_cons_self))
      have hkr := hpost.lt_root hk ha
      -- the search starts from the number of `a`, and meets the entry
      have hnone := meetPredecessors_unset (c := k) (r := s.postorder.length - 1)
        (by rw [List.length_set, List.length_replicate]; omega) (by omega) (domTree_start hpos)
        (fun x hx => startArray_unset hx) hkr n (as.map (s.postorder.idxOf ·))
        (fun p hp => hle p (List.mem_cons_of_mem _ hp))
        ⟨s.postorder.length - 1, List.mem_map.mpr ⟨entry,
          (List.mem_cons.mp hmem).resolve_left (Ne.symm ha), hroot⟩, le_rfl⟩
      replace hx : (as.map (s.postorder.idxOf ·)).foldlM
        (meetPredecessor (startArray s.postorder.length) n) (s.postorder.idxOf a) = some x := hx
      rw [hpost.idxOf_eq hk, hnone] at hx
      cases hx

/-- **Safe orders are needed**, unless the entry loses its number in the first round and some
oldest use comes from a block listed earlier. -/
theorem BuiltCfg.safeOrder_of_rooted (hcond : EntryFirst ir entry ∨ OldestUsesLater ir entry)
    (hrooted : DominatorsRooted ir entry) : SafeOrder ir entry := by
  have hfew := h.few_of_rooted hrooted
  have holdest : OldestUsesLater ir entry :=
    hcond.elim (fun hfirst => h.oldest_of_rooted hfirst hrooted) id
  have hself := fun hE => h.self_of_rooted hrooted hE
  obtain ⟨fuel₀, hall⟩ := hrooted
  obtain ⟨n, hfuel₀, hlarge⟩ : ∃ n, fuel₀ ≤ n ∧
      2 * (ir.blockCount * ir.blockCount) + 2 * ir.blockCount + 2 < n :=
    ⟨max fuel₀ (2 * (ir.blockCount * ir.blockCount) + 2 * ir.blockCount + 3), by omega, by omega⟩
  obtain ⟨doms, x, hcomp, hs, hloop, hmeet⟩ := h.exists_computed hfew holdest hself hlarge
  have hiff := hcomp.rootMeet_iff (fun a ha => h.reachable_of_mem ha) hmeet
  have hpost := hcomp.numbered.postorder
  have hpos : 0 < doms.postorder.length := hpost.length_pos
  have hroot : doms.postorder[doms.postorder.length - 1]? = some entry := hpost.getElem?_root
  obtain ⟨doms', hdoms', -, hchilds, hat⟩ := hall n hfuel₀
  obtain ⟨hsame, hloop'⟩ := dominatorsCompute_loop hs hdoms'
  obtain ⟨hnums, hpostorder⟩ := VisitState.mk.inj hsame
  have harray := Option.some.inj (hloop'.symm.trans hloop)
  -- the entry is its own dominator in the array
  have hx : x = doms.postorder.length - 1 := by
    have hget := hat.root
    have hlen : doms.doms.length = doms.postorder.length := hcomp.fixpoint.inv.length
    have hnum : dominatorsGetNumber doms.nodeToNum entry = some (doms.postorder.length - 1) :=
      hpost.getNumber hcomp.numbered.fits hroot
    unfold dominatorsGetIDom at hget
    rw [← hnums, ← hpostorder, harray, hnum, Option.bind_eq_bind, Option.bind_some,
      List.getElem?_set_self (by omega), Option.bind_some] at hget
    exact (hpost.idxOf_eq hget).symm.trans (hpost.idxOf_eq hroot)
  rw [hx] at hloop
  have hdoms := hcomp.compute_of_root hs hloop
  obtain rfl := Option.some.inj (hdoms'.symm.trans hdoms)
  refine ⟨hfew, fun d => ?_, holdest, hself, hiff.mp hx⟩
  rw [← dominatedBlocks_withoutEdgesTo]
  exact hcomp.childsStored_iff.mp hchilds d

end Needed

/-! ## Any order -/

/-- Two orders that are safe for the same edges give the same dominators. -/
theorem BuiltCfg.sameDominators {ops ops' : List BuildOp} {ir ir' : Ir} {entry : ℕ}
    (h : BuiltCfg ops ir entry) (h' : BuiltCfg ops' ir' entry)
    (hedges : ∀ a b, cfgEdge ir' a b ↔ cfgEdge ir a b) (hsafe : SafeOrder ir entry)
    (hsafe' : SafeOrder ir' entry) : SameDominators ir ir' entry := by
  have hsame : cfgEdge ir' = cfgEdge ir := by
    funext a b
    exact propext (hedges a b)
  refine ⟨2 * (ir.blockCount * ir.blockCount) + 2 * ir.blockCount + 2 +
    (2 * (ir'.blockCount * ir'.blockCount) + 2 * ir'.blockCount + 2) + 1, fun fuel hfuel => ?_⟩
  obtain ⟨doms, hdoms, -, -, hat⟩ := h.rooted_of_safeOrder hsafe (show _ < fuel by omega)
  obtain ⟨doms', hdoms', -, -, hat'⟩ := h'.rooted_of_safeOrder hsafe' (show _ < fuel by omega)
  refine ⟨doms, doms', hdoms, hdoms', fun b hb => ?_⟩
  have hreach := h.reachable b hb
  by_cases hentry : b = entry
  · rw [hentry, hat.root, hat'.root]
  · obtain ⟨d, hd, hidom⟩ := hat.idom b hb hentry
    obtain ⟨d', hd', hidom'⟩ := hat'.idom b (h'.lt_blockCount (by rwa [hsame])) hentry
    rw [hsame] at hidom'
    rw [hd, hd', hidom.unique hreach hidom']

/-- **`dominators_compute` on a graph built in any order.**  For a safe order it ends, is
rooted at the entry and finds the immediate dominators, the same for every safe order of the
same edges.  The order has to be safe, unless the entry loses its number in the first round
and some oldest use comes from a block listed earlier. -/
theorem dominatorsCompute_rooted (ops : List BuildOp) (ir : Ir) (entry : ℕ)
    (h : BuiltCfg ops ir entry) :
    (SafeOrder ir entry → DominatorsRooted ir entry ∧
      ∀ ops' ir', BuiltCfg ops' ir' entry → (∀ a b, cfgEdge ir' a b ↔ cfgEdge ir a b) →
        SafeOrder ir' entry → SameDominators ir ir' entry) ∧
    (EntryFirst ir entry ∨ OldestUsesLater ir entry →
      DominatorsRooted ir entry → SafeOrder ir entry) := by
  constructor
  · intro hsafe
    refine ⟨⟨2 * (ir.blockCount * ir.blockCount) + 2 * ir.blockCount + 3, fun fuel hfuel => ?_⟩, ?_⟩
    · exact h.rooted_of_safeOrder hsafe (by omega)
    · intro ops' ir' h' hedges hsafe'
      exact h.sameDominators h' hedges hsafe hsafe'
  · exact h.safeOrder_of_rooted

/-- The entry branches to two blocks that lead back to it. -/
def backEdgeOps : List BuildOp :=
  [.call (.constantValue 1), .call .blockNew, .call .blockNew, .call .blockNew,
    .call (.newJump 0), .call (.newJumpCond 1 2 (.const 0)), .call (.newJump 0),
    .insert 1 0, .insert 0 1, .insert 2 2]

/-- A loop whose back edge is created before the edge into it: the blocks `0`, `1`, `2` and
the exit `3`, with a jump from `2` to `1`. -/
def loopOps : List BuildOp :=
  [.call (.constantValue 1), .call .blockNew, .call .blockNew, .call .blockNew, .call .blockNew,
    .call (.newJump 1), .call (.newJump 1), .call (.newJumpCond 2 3 (.const 0)),
    .insert 2 0, .insert 0 1, .insert 1 2]

/-- The graph that calls build. -/
def builtIr (ops : List BuildOp) : Ir := (Runs.run buildStep irContextInit ops).getD irContextInit

theorem builtIr_built {ops : List BuildOp} (h : (Runs.run buildStep irContextInit ops).isSome) :
    Runs.run buildStep irContextInit ops = some (builtIr ops) := by
  obtain ⟨ir, hir⟩ := Option.isSome_iff_exists.mp h
  unfold builtIr
  rw [hir]
  rfl

theorem builtCfg_backEdge : BuiltCfg backEdgeOps (builtIr backEdgeOps) 0 where
  allowed := by decide
  built := builtIr_built (by decide)
  inserted := by decide
  entry_lt := by decide
  reachable := by
    intro b hb
    have hcount : (builtIr backEdgeOps).blockCount = 3 := by decide
    have h1 : 1 ∈ blockSuccessors (builtIr backEdgeOps) 0 := by decide
    have h2 : 2 ∈ blockSuccessors (builtIr backEdgeOps) 0 := by decide
    rw [hcount] at hb
    match b, hb with
    | 0, _ => exact .root
    | 1, _ => exact Reachable.root.step h1
    | 2, _ => exact Reachable.root.step h2

theorem builtCfg_loop : BuiltCfg loopOps (builtIr loopOps) 0 where
  allowed := by decide
  built := builtIr_built (by decide)
  inserted := by decide
  entry_lt := by decide
  reachable := by
    intro b hb
    have hcount : (builtIr loopOps).blockCount = 4 := by decide
    have h1 : 1 ∈ blockSuccessors (builtIr loopOps) 0 := by decide
    have h2 : 2 ∈ blockSuccessors (builtIr loopOps) 1 := by decide
    have h3 : 3 ∈ blockSuccessors (builtIr loopOps) 1 := by decide
    rw [hcount] at hb
    match b, hb with
    | 0, _ => exact .root
    | 1, _ => exact Reachable.root.step h1
    | 2, _ => exact (Reachable.root.step h1).step h2
    | 3, _ => exact (Reachable.root.step h1).step h3

theorem dominatorsCompute_rooted_backEdge :
    (SafeOrder (builtIr backEdgeOps) 0 → DominatorsRooted (builtIr backEdgeOps) 0 ∧
      ∀ ops' ir', BuiltCfg ops' ir' 0 →
        (∀ a b, cfgEdge ir' a b ↔ cfgEdge (builtIr backEdgeOps) a b) →
        SafeOrder ir' 0 → SameDominators (builtIr backEdgeOps) ir' 0) ∧
    (EntryFirst (builtIr backEdgeOps) 0 ∨ OldestUsesLater (builtIr backEdgeOps) 0 →
      DominatorsRooted (builtIr backEdgeOps) 0 → SafeOrder (builtIr backEdgeOps) 0) :=
  dominatorsCompute_rooted backEdgeOps (builtIr backEdgeOps) 0 builtCfg_backEdge

/-- **The computation does not end** when the back edge of a loop is created first. -/
theorem dominatorsCompute_not_rooted : BuiltCfg loopOps (builtIr loopOps) 0 ∧
    ¬ DominatorsRooted (builtIr loopOps) 0 := by
  refine ⟨builtCfg_loop, fun hrooted => ?_⟩
  have hfirst : EntryFirst (builtIr loopOps) 0 := by
    intro a ha
    have hnone : blockPredecessors (builtIr loopOps) 0 = [] := by decide
    rw [hnone] at ha
    cases ha
  have holdest := builtCfg_loop.oldest_of_rooted hfirst hrooted
  obtain ⟨i, a, ha, hi, hlt⟩ := holdest 5 [2, 3, 1, 0] (by decide) 2 1 rfl (by decide)
  have hhead : (blockPredecessors (builtIr loopOps) 1).head? = some 2 := by decide
  obtain rfl := Option.some.inj (hhead.symm.trans ha)
  match i, hi with
  | 3, hi => cases hi
