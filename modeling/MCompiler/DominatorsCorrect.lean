/-
# `dominators_compute` computes immediate dominators

* `dominatorsCompute_correct_iff` : on every graph of the right shape the computation ends
  with the immediate dominators, and the walk over the dominator tree visits every
  reachable block once, if and only if the buffers of the postorder and of the children are
  large enough: at most 250 blocks are reachable, and no block is the immediate dominator
  of more than 16 blocks;
* `dominatorsCompute_not_correct` : on a chain of 251 blocks the last block of the postorder
  is stored past the end of its buffer.
-/
import MCompiler.Buffer
import MCompiler.DominatorsLoop
import Mathlib.Data.Set.Card

open FlowGraph ParentTree DominatorFixpoint Runs

/-! ## The tree nodes -/

theorem getD_of_some {l : List ℕ} {k c : ℕ} (hk : l[k]? = some c) : l.getD k 0 = c := by
  rw [List.getD_eq_getElem?_getD, hk, Option.getD_some]

/-- The children of the node `x` among the nodes below `k`. -/
def childrenBelow (doms : List ℕ) (k x : ℕ) : List ℕ :=
  (List.range k).filter (fun j => parentOf doms j = x ∧ j ≠ x)

theorem mem_childrenBelow {doms : List ℕ} {k x j : ℕ} :
    j ∈ childrenBelow doms k x ↔ j < k ∧ parentOf doms j = x ∧ j ≠ x := by
  simp [childrenBelow]

theorem childrenBelow_succ (doms : List ℕ) (k x : ℕ) :
    childrenBelow doms (k + 1) x =
      if parentOf doms k = x ∧ k ≠ x then childrenBelow doms k x ++ [k]
      else childrenBelow doms k x := by
  unfold childrenBelow
  rw [List.range_succ, List.filter_append]
  split
  · rename_i hk
    rw [List.filter_cons_of_pos (by simpa using hk), List.filter_nil]
  · rename_i hk
    rw [List.filter_cons_of_neg (by simpa using hk), List.filter_nil, List.append_nil]

/-- The tree nodes after the nodes below `k` have been given to their parents. -/
def nodesBelow (doms : List ℕ) (n k : ℕ) : List DomNode :=
  (List.range n).map (fun i => ⟨i, childrenBelow doms k i⟩)

theorem getElem?_nodesBelow {doms : List ℕ} {n k i : ℕ} (hi : i < n) :
    (nodesBelow doms n k)[i]? = some ⟨i, childrenBelow doms k i⟩ := by
  rw [nodesBelow, List.getElem?_map, List.getElem?_range hi]
  rfl

theorem pushChild_spec {doms : List ℕ} {n k : ℕ} (hlen : doms.length = n) (hk : k < n)
    (hle : parentOf doms k < n) :
    pushChild doms (nodesBelow doms n k) k = some (nodesBelow doms n (k + 1)) := by
  unfold pushChild
  rw [getElem?_eq_parentOf (by omega)]
  by_cases hroot : parentOf doms k = k
  · have hsame : nodesBelow doms n (k + 1) = nodesBelow doms n k := by
      unfold nodesBelow
      refine List.map_congr_left ?_
      intro i _
      rw [childrenBelow_succ, if_neg]
      rintro ⟨hki, hne⟩
      exact hne (hroot.symm.trans hki)
    rw [hsame]
    simp [hroot]
  · have hset : (nodesBelow doms n k).set (parentOf doms k)
        ⟨parentOf doms k, childrenBelow doms k (parentOf doms k) ++ [k]⟩ =
        nodesBelow doms n (k + 1) := by
      refine List.ext_getElem? ?_
      intro i
      rw [List.getElem?_set]
      rcases Nat.lt_or_ge i n with hi | hi
      · rw [getElem?_nodesBelow hi, getElem?_nodesBelow hi, childrenBelow_succ]
        by_cases hki : parentOf doms k = i
        · subst hki
          rw [if_pos rfl, if_pos (by rw [nodesBelow, List.length_map, List.length_range]; omega),
            if_pos ⟨rfl, Ne.symm hroot⟩]
        · rw [if_neg hki, if_neg (fun h => hki h.1)]
      · have hnone : ∀ k', (nodesBelow doms n k')[i]? = none := fun k' =>
          List.getElem?_eq_none (by rw [nodesBelow, List.length_map, List.length_range]; omega)
        rw [if_neg (by omega), hnone, hnone]
    show (if parentOf doms k = k then _ else _) = _
    rw [if_neg hroot, getElem?_nodesBelow hle]
    exact congrArg some hset

/-- The loop that builds the tree. -/
theorem pushChilds_spec {doms : List ℕ} {n : ℕ} (hlen : doms.length = n)
    (hle : ∀ k < n, parentOf doms k < n) (k : ℕ) (hk : k ≤ n) :
    (List.range k).foldlM (pushChild doms) ((List.range n).map (fun i => ⟨i, []⟩)) =
      some (nodesBelow doms n k) := by
  induction k with
  | zero => rfl
  | succ k ih =>
      rw [List.range_succ, List.foldlM_append, ih (by omega), Option.bind_eq_bind,
        Option.bind_some, List.foldlM_cons, pushChild_spec hlen (by omega) (hle k (by omega))]
      rfl

/-! ## The result -/

/-- The result of `dominators_compute` on a graph whose numbers fit. -/
structure ComputedDominators (ir : Ir) (entry : ℕ) (doms : Dominators) : Prop where
  numbered : NumberedCfg ir entry ⟨doms.nodeToNum, doms.postorder⟩
  fixpoint : DomsFixpoint ir ⟨doms.nodeToNum, doms.postorder⟩ doms.doms
  count : doms.elementCount = doms.postorder.length
  nodes : doms.domNodes = nodesBelow doms.doms doms.postorder.length doms.postorder.length

/-- A list of different numbers below `n` is not longer than `n`. -/
theorem length_le_of_nodup {l : List ℕ} {n : ℕ} (hl : l.Nodup) (hn : ∀ x ∈ l, x < n) :
    l.length ≤ n := by
  have hsub : l.toFinset ⊆ Finset.range n := fun x hx =>
    Finset.mem_range.mpr (hn x (List.mem_toFinset.mp hx))
  have hcard := Finset.card_le_card hsub
  rwa [List.toFinset_card_of_nodup hl, Finset.card_range] at hcard

theorem IsPostorder.length_le {ir : Ir} {entry : ℕ} {s : VisitState}
    (h : IsPostorder ir entry s) (hshape : CfgShape ir entry) :
    s.postorder.length ≤ ir.blockCount :=
  length_le_of_nodup h.nodup (fun b hb => hshape.allocated b ((h.mem b).mp hb))

/-- The number of reachable blocks. -/
theorem IsPostorder.ncard_reachable {ir : Ir} {entry : ℕ} {s : VisitState}
    (h : IsPostorder ir entry s) :
    {b | Reachable (cfgEdge ir) entry b}.ncard = s.postorder.length := by
  have hset : {b | Reachable (cfgEdge ir) entry b} = (s.postorder.toFinset : Set ℕ) := by
    ext b
    rw [Set.mem_ofPred_eq, Finset.mem_coe, List.mem_toFinset, h.mem]
  rw [hset, Set.ncard_coe_finset, List.toFinset_card_of_nodup h.nodup]

/-- The array that the loop starts with. -/
abbrev startArray (n : ℕ) : List ℕ := (List.replicate n sizeMax).set (n - 1) (n - 1)

/-- What a computation that ends has done. -/
theorem dominatorsCompute_inv {ir : Ir} {entry fuel : ℕ} {doms : Dominators}
    (h : dominatorsCompute ir fuel entry = some doms) :
    visit ir fuel visitStart entry = some ⟨doms.nodeToNum, doms.postorder⟩ ∧
      dominatorsLoop ir doms.nodeToNum doms.postorder doms.postorder.length fuel fuel
        (startArray doms.postorder.length) = some doms.doms ∧
      (List.range doms.postorder.length).foldlM (pushChild doms.doms)
        ((List.range doms.postorder.length).map (fun i => ⟨i, []⟩)) = some doms.domNodes := by
  unfold dominatorsCompute at h
  obtain ⟨s, hs, h⟩ := Option.bind_eq_some_iff.mp h
  have hpos := (visit_postorder hs).length_pos
  replace h : (if s.postorder.length = 0 then _ else _) = some doms := h
  rw [if_neg (by omega)] at h
  obtain ⟨array, harray, h⟩ := Option.bind_eq_some_iff.mp h
  obtain ⟨nodes, hnodes, h⟩ := Option.bind_eq_some_iff.mp h
  obtain rfl := Option.some.inj h
  exact ⟨hs, harray, hnodes⟩

/-- The loop of a computation, in terms of the visit. -/
theorem dominatorsCompute_loop {ir : Ir} {entry fuel : ℕ} {s : VisitState} {doms : Dominators}
    (hs : visit ir fuel visitStart entry = some s)
    (h : dominatorsCompute ir fuel entry = some doms) :
    s = ⟨doms.nodeToNum, doms.postorder⟩ ∧ dominatorsLoop ir s.nodeToNum s.postorder
      s.postorder.length fuel fuel (startArray s.postorder.length) = some doms.doms := by
  obtain ⟨hs', hloop, -⟩ := dominatorsCompute_inv h
  obtain rfl := Option.some.inj (hs.symm.trans hs')
  exact ⟨rfl, hloop⟩

/-- A loop that ends with dominators of all nodes gives the tree. -/
theorem dominatorsCompute_of_loop {ir : Ir} {entry fuel : ℕ} {s : VisitState} {doms : List ℕ}
    (hs : visit ir fuel visitStart entry = some s)
    (hloop : dominatorsLoop ir s.nodeToNum s.postorder s.postorder.length fuel fuel
      (startArray s.postorder.length) = some doms)
    (hlen : doms.length = s.postorder.length)
    (hle : ∀ k < s.postorder.length, parentOf doms k < s.postorder.length) :
    dominatorsCompute ir fuel entry = some ⟨nodesBelow doms s.postorder.length s.postorder.length,
      doms, s.nodeToNum, s.postorder, s.postorder.length⟩ := by
  have hpos := (visit_postorder hs).length_pos
  have hnodes := pushChilds_spec hlen hle s.postorder.length le_rfl
  unfold dominatorsCompute
  rw [hs]
  show (if s.postorder.length = 0 then _ else _) = _
  rw [if_neg (by omega)]
  show (dominatorsLoop ir s.nodeToNum s.postorder s.postorder.length fuel fuel _).bind _ = _
  rw [hloop, Option.bind_some]
  show ((List.range s.postorder.length).foldlM (pushChild doms) _).bind _ = _
  rw [hnodes]
  rfl

/-- The dominators of a fixpoint are nodes. -/
theorem DomsFixpoint.parent_lt {ir : Ir} {entry : ℕ} {s : VisitState} {doms : List ℕ}
    (h : DomsFixpoint ir s doms) (hpost : IsPostorder ir entry s) :
    ∀ k < s.postorder.length, parentOf doms k < s.postorder.length := by
  intro k hk
  have hpos := hpost.length_pos
  have hmem := h.inv.inv.climbs.closed ⟨Nat.zero_le k, by omega⟩
  omega

/-- **The computation ends**, with a fixpoint and its tree. -/
theorem dominatorsCompute_spec {ir : Ir} {entry fuel : ℕ} (hshape : CfgShape ir entry)
    (hcount : {b | Reachable (cfgEdge ir) entry b}.ncard ≤ 2 ^ 31)
    (hfuel : ir.blockCount * ir.blockCount + 2 * ir.blockCount + 1 < fuel) :
    ∃ doms, dominatorsCompute ir fuel entry = some doms ∧ ComputedDominators ir entry doms := by
  obtain ⟨s, hs⟩ := visit_entry_succeeds hshape.allocated
    (show ir.blockCount < fuel from by omega)
  have hpost := visit_postorder hs
  have hlen := hpost.length_le hshape
  have hpos := hpost.length_pos
  have hnum : NumberedCfg ir entry s := ⟨hshape, hpost, ⟨fuel, hs⟩, by
    rwa [hpost.ncard_reachable] at hcount⟩
  have hsquare : (s.postorder.length - 1) * (s.postorder.length - 1) ≤
      ir.blockCount * ir.blockCount := Nat.mul_le_mul (by omega) (by omega)
  have hfuel' : 2 * s.postorder.length < fuel := by omega
  obtain ⟨doms, hdoms, hfix⟩ := hnum.dominatorsLoop_spec hfuel' hnum.domsInv_start
    (show _ < fuel from by omega)
  exact ⟨_, dominatorsCompute_of_loop hs hdoms hfix.inv.length (hfix.parent_lt hpost), hnum, hfix,
    rfl, rfl⟩

/-! ## Immediate dominators of blocks -/

section Computed

variable {ir : Ir} {entry : ℕ} {doms : Dominators} (h : ComputedDominators ir entry doms)
include h

/-- The number of a block leads to its dominator in the array. -/
theorem ComputedDominators.getIDom_eq {x b : ℕ} (hx : doms.postorder[x]? = some b) :
    dominatorsGetIDom doms b = doms.postorder[parentOf doms.doms x]? := by
  have hlt := (List.getElem?_eq_some_iff.mp hx).1
  have hnum : dominatorsGetNumber doms.nodeToNum b = some x :=
    h.numbered.postorder.getNumber h.numbered.fits hx
  have hlen : doms.doms.length = doms.postorder.length := h.fixpoint.inv.length
  unfold dominatorsGetIDom
  rw [hnum, Option.bind_eq_bind, Option.bind_some, getElem?_eq_parentOf (by omega)]
  rfl

/-- The entry is its own dominator. -/
theorem ComputedDominators.getIDom_entry : dominatorsGetIDom doms entry = some entry := by
  have hroot : doms.postorder[doms.postorder.length - 1]? = some entry :=
    h.numbered.postorder.getElem?_root
  have hfix : parentOf doms.doms (doms.postorder.length - 1) = doms.postorder.length - 1 :=
    h.fixpoint.inv.inv.climbs.fix
  rw [h.getIDom_eq hroot, hfix, hroot]

/-- Dominance of numbers is dominance of blocks. -/
theorem ComputedDominators.dominates_iff {x y a b : ℕ} (hx : doms.postorder[x]? = some a)
    (hy : doms.postorder[y]? = some b) :
    Dominates (numEdge ir doms.postorder) (doms.postorder.length - 1) x y ↔
      Dominates (cfgEdge ir) entry a b := by
  have hpost := h.numbered.postorder
  have hroot : doms.postorder[doms.postorder.length - 1]? = some entry := hpost.getElem?_root
  have hidx : ∀ {k c : ℕ}, doms.postorder[k]? = some c → doms.postorder.idxOf c = k :=
    hpost.idxOf_eq
  constructor
  · intro hdom
    rw [← hidx hx, ← hidx hy] at hdom
    refine Dominates.of_map (f := (doms.postorder.idxOf ·)) (hidx hroot) ?_ ?_ hdom
    · intro c c' hc hE
      obtain ⟨k, hk⟩ := hpost.exists_number hc
      obtain ⟨k', hk'⟩ := hpost.exists_number (hc.step hE)
      rw [hidx hk, hidx hk']
      exact ⟨c, c', hk, hk', hE⟩
    · intro c hc heq
      obtain ⟨k, hk⟩ := hpost.exists_number hc
      rw [hidx hk, hidx hx] at heq
      subst heq
      exact Option.some.inj (hk.symm.trans hx)
  · intro hdom
    rw [← getD_of_some hx, ← getD_of_some hy] at hdom
    refine Dominates.of_map (f := (doms.postorder.getD · 0)) (getD_of_some hroot) ?_ ?_ hdom
    · rintro k k' - ⟨c, c', hk, hk', hE⟩
      rw [getD_of_some hk, getD_of_some hk']
      exact hE
    · rintro k ⟨p, hp⟩ heq
      -- a node that is reached has a block
      have hk : ∃ c : ℕ, doms.postorder[k]? = some c := by
        cases hp with
        | root => exact ⟨entry, hroot⟩
        | step _ hE =>
            obtain ⟨_, c, _, hc, _⟩ := hE
            exact ⟨c, hc⟩
      obtain ⟨c, hk⟩ := hk
      rw [getD_of_some hk, getD_of_some hx] at heq
      subst heq
      rw [← hidx hk, hidx hx]

/-- The parents are the immediate dominators. -/
theorem ComputedDominators.isIDom {x b : ℕ} (hx : doms.postorder[x]? = some b)
    (hb : b ≠ entry) :
    ∃ d, doms.postorder[parentOf doms.doms x]? = some d ∧ IsIDom (cfgEdge ir) entry d b := by
  have hpost := h.numbered.postorder
  have hlt : x < doms.postorder.length - 1 := hpost.lt_root hx hb
  have hidom := h.fixpoint.inv.inv.isIDom h.numbered.numbered h.fixpoint.fix hlt
  have hmem := h.fixpoint.inv.inv.climbs.closed ⟨Nat.zero_le x, hlt.le⟩
  have hparent : parentOf doms.doms x < doms.postorder.length := by
    have hle : parentOf doms.doms x ≤ doms.postorder.length - 1 := hmem.2
    omega
  have hd : doms.postorder[parentOf doms.doms x]? = some doms.postorder[parentOf doms.doms x] :=
    List.getElem?_eq_getElem hparent
  refine ⟨_, hd, ⟨?_, (h.dominates_iff hd hx).mp hidom.strict.2⟩, ?_⟩
  · intro heq
    rw [heq] at hd
    exact hidom.strict.1 ((hpost.idxOf_eq hd).symm.trans (hpost.idxOf_eq hx))
  · rintro c ⟨hne, hc⟩
    obtain ⟨k, hk⟩ := hpost.exists_number (hc.reachable (hpost.reachable hx))
    refine (h.dominates_iff hk hd).mp (hidom.least k ⟨?_, (h.dominates_iff hk hx).mpr hc⟩)
    rintro rfl
    exact hne (Option.some.inj (hk.symm.trans hx))

end Computed

/-! ## The walk over the tree -/

/-- Reading a list element by element. -/
theorem mapM_eq_some {α β : Type*} {f : α → Option β} {g : α → β} (l : List α)
    (h : ∀ x ∈ l, f x = some (g x)) : l.mapM f = some (l.map g) := by
  induction l with
  | nil => rfl
  | cons x l ih =>
      rw [List.mapM_cons, h x List.mem_cons_self, ih (fun y hy => h y (List.mem_cons_of_mem _ hy))]
      rfl

section Walk

variable {ir : Ir} {entry : ℕ} {doms : Dominators} (h : ComputedDominators ir entry doms)
include h

/-- The children of a block. -/
theorem ComputedDominators.childs_eq {x b : ℕ} (hx : doms.postorder[x]? = some b) :
    dominatorChilds doms b = some
      ((childrenBelow doms.doms doms.postorder.length x).map (doms.postorder.getD · 0)) := by
  have hlt := (List.getElem?_eq_some_iff.mp hx).1
  have hnum : dominatorsGetNumber doms.nodeToNum b = some x :=
    h.numbered.postorder.getNumber h.numbered.fits hx
  unfold dominatorChilds
  rw [hnum, h.nodes, Option.bind_eq_bind, Option.bind_some, getElem?_nodesBelow hlt]
  refine mapM_eq_some _ ?_
  intro c hc
  obtain ⟨hclt, -⟩ := mem_childrenBelow.mp hc
  rw [getElem?_nodesBelow hclt, Option.bind_eq_bind, Option.bind_some, List.getD_eq_getElem?_getD,
    List.getElem?_eq_getElem hclt, Option.getD_some]

/-- **The walk** from a block visits once each the blocks below it in the tree. -/
theorem ComputedDominators.walk_spec (fuel : ℕ) : ∀ x b, doms.postorder[x]? = some b →
    x < fuel → ∃ l, dominatorWalk doms fuel b = some l ∧ l.Nodup ∧
      ∀ c, c ∈ l ↔ ∃ y : ℕ, doms.postorder[y]? = some c ∧ Ancestor (parentOf doms.doms) y x := by
  have htree := h.fixpoint.inv.inv.climbs
  have hpost := h.numbered.postorder
  have hP : ∀ {y c : ℕ}, doms.postorder[y]? = some c → 0 ≤ y ∧ y ≤ doms.postorder.length - 1 := by
    intro y c hy
    have hlt := (List.getElem?_eq_some_iff.mp hy).1
    omega
  induction fuel with
  | zero => intro x b _ hx; omega
  | succ fuel ih =>
      intro x b hx hfuel
      have hget : ∀ c ∈ childrenBelow doms.doms doms.postorder.length x,
          doms.postorder[c]? = some (doms.postorder.getD c 0) := by
        intro c hc
        obtain ⟨hclt, -⟩ := mem_childrenBelow.mp hc
        rw [List.getD_eq_getElem?_getD, List.getElem?_eq_getElem hclt, Option.getD_some]
      have hsub : ∀ c ∈ childrenBelow doms.doms doms.postorder.length x, ∃ l,
          dominatorWalk doms fuel (doms.postorder.getD c 0) = some l ∧ l.Nodup ∧
          ∀ e, e ∈ l ↔ ∃ y : ℕ, doms.postorder[y]? = some e ∧
            Ancestor (parentOf doms.doms) y c := by
        intro c hc
        obtain ⟨hclt, hcx, hne⟩ := mem_childrenBelow.mp hc
        have hlt := htree.lt_of_child ⟨Nat.zero_le c, show c ≤ doms.postorder.length - 1 by omega⟩
          (by rw [hcx]; exact hne)
        exact ih c _ (hget c hc) (by omega)
      choose! visits hvisits hnodup hmem using hsub
      refine ⟨b :: ((childrenBelow doms.doms doms.postorder.length x).map visits).flatten,
        ?_, ?_, ?_⟩
      · unfold dominatorWalk
        rw [h.childs_eq hx, Option.bind_eq_bind, Option.bind_some, List.mapM_map]
        have hwalks : (childrenBelow doms.doms doms.postorder.length x).mapM
            (dominatorWalk doms fuel ∘ (doms.postorder.getD · 0)) =
            some ((childrenBelow doms.doms doms.postorder.length x).map visits) :=
          mapM_eq_some _ hvisits
        rw [hwalks]
        rfl
      · refine List.nodup_cons.mpr ⟨?_, ?_⟩
        · -- the block itself is above its children
          intro hb
          obtain ⟨l, hl, hbl⟩ := List.mem_flatten.mp hb
          obtain ⟨c, hc, rfl⟩ := List.mem_map.mp hl
          obtain ⟨hclt, hcx, hne⟩ := mem_childrenBelow.mp hc
          obtain ⟨y, hy, hyc⟩ := (hmem c hc b).mp hbl
          obtain rfl := (hpost.idxOf_eq hy).symm.trans (hpost.idxOf_eq hx)
          have hle := htree.ancestor_le (hP hx) hyc
          have hlt := htree.lt_of_child ⟨Nat.zero_le c,
            show c ≤ doms.postorder.length - 1 by omega⟩ (by rw [hcx]; exact hne)
          omega
        · refine List.nodup_flatten.mpr ⟨?_, ?_⟩
          · intro l hl
            obtain ⟨c, hc, rfl⟩ := List.mem_map.mp hl
            exact hnodup c hc
          · rw [List.pairwise_map]
            refine List.Pairwise.imp_of_mem ?_ (List.nodup_range.filter _)
            intro c c' hc hc' hcc e he he'
            obtain ⟨hclt, hcx, hne⟩ := mem_childrenBelow.mp hc
            obtain ⟨hclt', hcx', hne'⟩ := mem_childrenBelow.mp hc'
            obtain ⟨y, hy, hyc⟩ := (hmem c hc e).mp he
            obtain ⟨y', hy', hyc'⟩ := (hmem c' hc' e).mp he'
            obtain rfl := (hpost.idxOf_eq hy).symm.trans (hpost.idxOf_eq hy')
            exact hcc (htree.child_unique (hP hy) hyc hyc' hcx hcx' hne hne')
      · intro e
        rw [List.mem_cons, List.mem_flatten]
        constructor
        · rintro (rfl | ⟨l, hl, he⟩)
          · exact ⟨x, hx, .refl x⟩
          · obtain ⟨c, hc, rfl⟩ := List.mem_map.mp hl
            obtain ⟨y, hy, hyc⟩ := (hmem c hc e).mp he
            obtain ⟨-, hcx, -⟩ := mem_childrenBelow.mp hc
            exact ⟨y, hy, hcx ▸ hyc.trans (.parent c)⟩
        · rintro ⟨y, hy, hyx⟩
          rcases (htree.ancestor_child_iff (hP hy)).mp hyx with rfl | ⟨c, hPc, hcx, hne, hyc⟩
          · exact .inl (Option.some.inj (hy.symm.trans hx))
          · have hpos := hpost.length_pos
            have hle : c ≤ doms.postorder.length - 1 := hPc.2
            have hpos' : 0 < doms.postorder.length := hpos
            have hc : c ∈ childrenBelow doms.doms doms.postorder.length x :=
              mem_childrenBelow.mpr ⟨by omega, hcx, hne⟩
            exact .inr ⟨_, List.mem_map_of_mem hc, (hmem c hc e).mpr ⟨y, hy, hyc⟩⟩

end Walk

/-! ## Correctness -/

/-- The entry is its own dominator, the dominator of another block is its immediate
dominator, of which there is only one, and the walk over the dominator tree from the
entry visits every reachable block once. -/
structure DominatorsCorrect (ir : Ir) (entry : ℕ) (doms : Dominators) : Prop where
  root : dominatorsGetIDom doms entry = some entry
  idom : ∀ b, Reachable (cfgEdge ir) entry b → b ≠ entry →
    ∃ d, dominatorsGetIDom doms b = some d ∧ IsIDom (cfgEdge ir) entry d b ∧
      ∀ d', IsIDom (cfgEdge ir) entry d' b → d' = d
  walk : ∃ fuel₀, ∀ fuel ≥ fuel₀, ∃ l, dominatorWalk doms fuel entry = some l ∧ l.Nodup ∧
    ∀ b, b ∈ l ↔ Reachable (cfgEdge ir) entry b

/-- The postorder is stored inside its buffer, wherever the blocks are. -/
def PostorderStored (postorder : List ℕ) : Prop :=
  ∀ address : ℕ → UInt64, EveryStep dbufferStep (fun d op => op.Safe d) (dbufferInitSize 1000)
    ((postorder.map address).map DbufferOp.pushPtr)

/-- The children of every node are stored inside its buffer, wherever the nodes are. -/
def ChildsStored (domNodes : List DomNode) : Prop :=
  ∀ node ∈ domNodes, ∀ address : ℕ → UInt64, EveryStep dbufferStep (fun d op => op.Safe d)
    (dbufferInitSize (8 * 8)) ((node.childs.map address).map DbufferOp.pushPtr)

theorem postorderStored_iff (postorder : List ℕ) :
    PostorderStored postorder ↔ postorder.length ≤ 250 := by
  have hiff := fun address : ℕ → UInt64 => pushPtrs_safe_iff (show 2 ≤ 125 by decide)
    (by decide) (postorder.map address)
  simp only [List.length_map] at hiff
  exact ⟨fun h => (hiff 0).mp (h 0), fun h address => (hiff address).mpr h⟩

theorem childsStored_iff_length (domNodes : List DomNode) :
    ChildsStored domNodes ↔ ∀ node ∈ domNodes, node.childs.length ≤ 16 := by
  apply forall₂_congr
  intro node _
  have hiff := fun address : ℕ → UInt64 => pushPtrs_safe_iff (show 2 ≤ 8 by decide)
    (by decide) (node.childs.map address)
  simp only [List.length_map] at hiff
  exact ⟨fun h => (hiff 0).mp (h 0), fun h address => (hiff address).mpr h⟩

/-- `dominators_compute` ends, its buffers are large enough, and its result is correct. -/
def ComputesDominators (ir : Ir) (entry : ℕ) : Prop :=
  ∃ fuel₀, ∀ fuel ≥ fuel₀, ∃ doms, dominatorsCompute ir fuel entry = some doms ∧
    PostorderStored doms.postorder ∧ ChildsStored doms.domNodes ∧ DominatorsCorrect ir entry doms

/-- The blocks whose immediate dominator is `d`. -/
def dominatedBlocks (ir : Ir) (entry d : ℕ) : Set ℕ :=
  {b | Reachable (cfgEdge ir) entry b ∧ IsIDom (cfgEdge ir) entry d b}

theorem ComputedDominators.correct {ir : Ir} {entry : ℕ} {doms : Dominators}
    (h : ComputedDominators ir entry doms) : DominatorsCorrect ir entry doms := by
  have hpost := h.numbered.postorder
  have hroot : doms.postorder[doms.postorder.length - 1]? = some entry := hpost.getElem?_root
  refine ⟨h.getIDom_entry, ?_, doms.postorder.length, ?_⟩
  · intro b hb hne
    obtain ⟨x, hx⟩ := hpost.exists_number hb
    obtain ⟨d, hd, hidom⟩ := h.isIDom hx hne
    exact ⟨d, (h.getIDom_eq hx).trans hd, hidom, fun d' hd' => hd'.unique hb hidom⟩
  · intro fuel hfuel
    have hpos : 0 < doms.postorder.length := hpost.length_pos
    obtain ⟨l, hl, hnodup, hmem⟩ := h.walk_spec fuel _ entry hroot (by omega)
    refine ⟨l, hl, hnodup, fun b => ?_⟩
    rw [hmem]
    constructor
    · rintro ⟨y, hy, -⟩
      exact hpost.reachable hy
    · intro hb
      obtain ⟨y, hy⟩ := hpost.exists_number hb
      have hlt := (List.getElem?_eq_some_iff.mp hy).1
      have hle : y ≤ doms.postorder.length - 1 := by
        have hlt' : y < doms.postorder.length := hlt
        omega
      exact ⟨y, hy, h.fixpoint.inv.inv.climbs.ancestor_root ⟨Nat.zero_le y, hle⟩⟩

/-! ## Buffers -/

section Buffers

variable {ir : Ir} {entry : ℕ} {doms : Dominators}

theorem exists_child_block {x j : ℕ} (hj : j ∈ childrenBelow doms.doms doms.postorder.length x) :
    ∃ b : ℕ, doms.postorder[j]? = some b := by
  obtain ⟨hlt, -⟩ := mem_childrenBelow.mp hj
  exact ⟨_, List.getElem?_eq_getElem hlt⟩

variable (h : ComputedDominators ir entry doms)
include h

/-- The children of a node are the blocks that its block dominates immediately. -/
theorem ComputedDominators.mem_children {x d b : ℕ} (hx : doms.postorder[x]? = some d) :
    b ∈ (childrenBelow doms.doms doms.postorder.length x).map (doms.postorder.getD · 0) ↔
      Reachable (cfgEdge ir) entry b ∧ IsIDom (cfgEdge ir) entry d b := by
  have hpost := h.numbered.postorder
  have hidx : ∀ {k c : ℕ}, doms.postorder[k]? = some c → doms.postorder.idxOf c = k :=
    hpost.idxOf_eq
  rw [List.mem_map]
  constructor
  · rintro ⟨j, hj, rfl⟩
    obtain ⟨hlt, hparent, hne⟩ := mem_childrenBelow.mp hj
    obtain ⟨b, hb⟩ := exists_child_block hj
    rw [getD_of_some hb]
    have hentry : b ≠ entry := by
      rintro rfl
      have hroot : j = doms.postorder.length - 1 :=
        (hidx hb).symm.trans (hidx hpost.getElem?_root)
      rw [hroot, h.fixpoint.inv.inv.climbs.fix] at hparent
      exact hne (hroot.trans hparent)
    obtain ⟨d', hd', hidom⟩ := h.isIDom hb hentry
    rw [hparent, hx] at hd'
    obtain rfl := Option.some.inj hd'
    exact ⟨hpost.reachable hb, hidom⟩
  · rintro ⟨hb, hidom⟩
    obtain ⟨j, hj⟩ := hpost.exists_number hb
    have hne : b ≠ entry := by
      rintro rfl
      exact hidom.strict.1 (List.mem_singleton.mp (hidom.strict.2 _ .root))
    obtain ⟨d', hd', hidom'⟩ := h.isIDom hj hne
    obtain rfl := hidom'.unique hb hidom
    have hparent : parentOf doms.doms j = x := (hidx hd').symm.trans (hidx hx)
    refine ⟨j, mem_childrenBelow.mpr ⟨(List.getElem?_eq_some_iff.mp hj).1, hparent, ?_⟩,
      getD_of_some hj⟩
    rintro rfl
    exact hidom.strict.1 (Option.some.inj (hx.symm.trans hj))

theorem ComputedDominators.length_children {x d : ℕ} (hx : doms.postorder[x]? = some d) :
    (childrenBelow doms.doms doms.postorder.length x).length =
      (dominatedBlocks ir entry d).ncard := by
  have hset : dominatedBlocks ir entry d = (((childrenBelow doms.doms doms.postorder.length x).map
      (doms.postorder.getD · 0)).toFinset : Set ℕ) := by
    ext b
    rw [Finset.mem_coe, List.mem_toFinset, h.mem_children hx]
    exact Iff.rfl
  have hnodup : ((childrenBelow doms.doms doms.postorder.length x).map
      (doms.postorder.getD · 0)).Nodup := by
    apply List.Nodup.map_on _ (List.nodup_range.filter _)
    intro j hj k hk hjk
    obtain ⟨b, hb⟩ := exists_child_block hj
    obtain ⟨c, hc⟩ := exists_child_block hk
    rw [getD_of_some hb, getD_of_some hc] at hjk
    have hidx : ∀ {k c : ℕ}, doms.postorder[k]? = some c → doms.postorder.idxOf c = k :=
      h.numbered.postorder.idxOf_eq
    rw [← hidx hb, ← hidx hc, hjk]
  rw [hset, Set.ncard_coe_finset, List.toFinset_card_of_nodup hnodup, List.length_map]

/-- The buffers of the children are large enough for 16 of them. -/
theorem ComputedDominators.childsStored_iff :
    ChildsStored doms.domNodes ↔ ∀ d, (dominatedBlocks ir entry d).ncard ≤ 16 := by
  have hpost := h.numbered.postorder
  rw [childsStored_iff_length, h.nodes]
  constructor
  · intro hall d
    by_cases hd : Reachable (cfgEdge ir) entry d
    · obtain ⟨x, hx⟩ := hpost.exists_number hd
      have hlt := (List.getElem?_eq_some_iff.mp hx).1
      rw [← h.length_children hx]
      exact hall _ (List.mem_of_getElem? (getElem?_nodesBelow hlt))
    · have hempty : dominatedBlocks ir entry d = ∅ := by
        rw [Set.eq_empty_iff_forall_notMem]
        rintro b ⟨hb, hidom⟩
        exact hd (hidom.strict.2.reachable hb)
      rw [hempty, Set.ncard_empty]
      exact Nat.zero_le 16
  · intro hall node hnode
    obtain ⟨x, hx⟩ := List.mem_iff_getElem?.mp hnode
    have hlt : x < doms.postorder.length := by
      have hlt := (List.getElem?_eq_some_iff.mp hx).1
      rwa [nodesBelow, List.length_map, List.length_range] at hlt
    rw [getElem?_nodesBelow hlt] at hx
    obtain rfl := Option.some.inj hx
    have hb : doms.postorder[x]? = some doms.postorder[x] := List.getElem?_eq_getElem hlt
    rw [h.length_children hb]
    exact hall _

end Buffers

/-- The postorder of a result lists the reachable blocks. -/
theorem length_postorder {ir : Ir} {entry fuel : ℕ} {doms : Dominators}
    (hdoms : dominatorsCompute ir fuel entry = some doms) :
    {b | Reachable (cfgEdge ir) entry b}.ncard = doms.postorder.length := by
  obtain ⟨hs, -, -⟩ := dominatorsCompute_inv hdoms
  exact (visit_postorder hs).ncard_reachable

/-- **`dominators_compute`.**  On a graph of the right shape it ends and computes the
immediate dominators if and only if its buffers are large enough: at most 250 blocks are
reachable, and no block is the immediate dominator of more than 16 blocks. -/
theorem dominatorsCompute_correct_iff (ir : Ir) (entry : ℕ) (hshape : CfgShape ir entry) :
    ComputesDominators ir entry ↔
      {b | Reachable (cfgEdge ir) entry b}.ncard ≤ 250 ∧
        ∀ d, (dominatedBlocks ir entry d).ncard ≤ 16 := by
  constructor
  · rintro ⟨fuel₀, hall⟩
    have hfew : {b | Reachable (cfgEdge ir) entry b}.ncard ≤ 250 := by
      obtain ⟨doms, hdoms, hstored, -⟩ := hall fuel₀ le_rfl
      rw [length_postorder hdoms]
      exact (postorderStored_iff _).mp hstored
    refine ⟨hfew, ?_⟩
    -- with enough steps the result is that of the fixpoint
    obtain ⟨doms, hdoms, hcomp⟩ := dominatorsCompute_spec hshape (by omega)
      (show _ < max fuel₀ (ir.blockCount * ir.blockCount + 2 * ir.blockCount + 2) by omega)
    obtain ⟨doms', hdoms', -, hchilds, -⟩ := hall _ (Nat.le_max_left _ _)
    obtain rfl := Option.some.inj (hdoms.symm.trans hdoms')
    exact hcomp.childsStored_iff.mp hchilds
  · rintro ⟨hfew, hchilds⟩
    refine ⟨ir.blockCount * ir.blockCount + 2 * ir.blockCount + 2, fun fuel hfuel => ?_⟩
    obtain ⟨doms, hdoms, hcomp⟩ := dominatorsCompute_spec hshape (by omega) hfuel
    refine ⟨doms, hdoms, (postorderStored_iff _).mpr ?_, hcomp.childsStored_iff.mpr hchilds,
      hcomp.correct⟩
    rw [← length_postorder hdoms]
    exact hfew

/-! ## Chains -/

/-- The blocks `0, …, n - 1`, each with a jump to the next one. -/
def chainIr (n : ℕ) : Ir where
  insts := fun i =>
    if i + 1 < n then ⟨.jump, .void, [some (.block (i + 1))], i⟩ else ⟨.ret, .void, [], i⟩
  blocks := fun b => [b]
  consts := fun _ => 0
  uses := fun v =>
    match v with
    | .block (b + 1) => if b + 1 < n then [⟨b, 0⟩] else []
    | _ => []
  instCount := n
  blockCount := n
  constCount := 0

section Chain

variable {n : ℕ}

theorem blockSuccessors_chain (n b : ℕ) :
    blockSuccessors (chainIr n) b = if b + 1 < n then [b + 1] else [] := by
  have hlast : blockLastInstruction (chainIr n) b = some b := rfl
  have hinst : (chainIr n).insts b =
      if b + 1 < n then ⟨.jump, .void, [some (.block (b + 1))], b⟩ else ⟨.ret, .void, [], b⟩ := rfl
  unfold blockSuccessors
  rw [hlast]
  dsimp only
  rw [hinst]
  by_cases hlt : b + 1 < n
  · rw [if_pos hlt, if_pos hlt]
    rfl
  · rw [if_neg hlt, if_neg hlt]
    rfl

theorem cfgEdge_chain {a b : ℕ} : cfgEdge (chainIr n) a b ↔ b = a + 1 ∧ b < n := by
  unfold cfgEdge
  rw [blockSuccessors_chain]
  split
  · simp only [List.mem_singleton]
    omega
  · simp only [List.not_mem_nil, false_iff]
    omega

theorem reachable_chain (hn : 0 < n) {b : ℕ} : Reachable (cfgEdge (chainIr n)) 0 b ↔ b < n := by
  constructor
  · rintro ⟨p, hp⟩
    cases hp with
    | root => exact hn
    | step _ hE => exact (cfgEdge_chain.mp hE).2
  · intro hb
    induction b with
    | zero => exact .root
    | succ b ih => exact (ih (by omega)).step (cfgEdge_chain.mpr ⟨rfl, hb⟩)

/-- The postorder of a chain. -/
theorem visit_chain (fuel : ℕ) : ∀ s s' b, b < n → (∀ x, b ≤ x → s.nodeToNum x = none) →
    visit (chainIr n) fuel s b = some s' →
    s'.postorder = s.postorder ++ (List.range' b (n - b)).reverse := by
  induction fuel with
  | zero => intro s s' b _ _ h; cases h
  | succ fuel ih =>
      intro s s' b hb hnone h
      unfold visit at h
      rw [hnone b le_rfl, blockSuccessors_chain] at h
      obtain ⟨s₁, hs₁, rfl⟩ := Option.map_eq_some_iff.mp h
      show s₁.postorder ++ [b] = _
      rw [show n - b = n - (b + 1) + 1 from by omega, List.range'_succ, List.reverse_cons,
        ← List.append_assoc]
      congr 1
      split at hs₁
      · rename_i hlt
        obtain ⟨s₂, hs₂, hrest⟩ := Option.bind_eq_some_iff.mp hs₁
        obtain rfl := Option.some.inj hrest
        refine ih (s.setNumber b 0) _ (b + 1) hlt ?_ hs₂
        intro x hx
        rw [setNumber_of_ne (by omega)]
        exact hnone x (by omega)
      · rename_i hlast
        obtain rfl := Option.some.inj hs₁
        rw [show n - (b + 1) = 0 from by omega]
        exact (List.append_nil _).symm

theorem blockPredecessors_chain {b : ℕ} (hb : b + 1 < n) :
    blockPredecessors (chainIr n) (b + 1) = [b] := by
  have huses : (chainIr n).uses (.block (b + 1)) = [⟨b, 0⟩] := if_pos hb
  have hinst : (chainIr n).insts b = ⟨.jump, .void, [some (.block (b + 1))], b⟩ := if_pos hb
  rw [blockPredecessors, huses, List.map_singleton, hinst]

theorem operand_chain {u : Use} {b : ℕ} :
    (chainIr n).operand u = some (.block b) ↔ u.slot = 0 ∧ b = u.inst + 1 ∧ b < n := by
  have hinst : (chainIr n).insts u.inst = if u.inst + 1 < n
      then ⟨.jump, .void, [some (.block (u.inst + 1))], u.inst⟩
      else ⟨.ret, .void, [], u.inst⟩ := rfl
  unfold Ir.operand
  rw [hinst]
  split
  · rename_i hlt
    cases hslot : u.slot with
    | zero =>
        simp only [List.getElem?_cons_zero, Option.join_some, Option.some.injEq,
          Value.block.injEq, true_and]
        omega
    | succ k => simp
  · rename_i hge
    simp only [List.getElem?_nil, Option.join_none, reduceCtorEq, false_iff]
    omega

/-- A chain has the shape that the computation assumes. -/
theorem chainIr_shape (hn : 0 < n) (hmemory : 8 * n < 2 ^ 64) : CfgShape (chainIr n) 0 where
  allocated := fun b hb => (reachable_chain hn).mp hb
  memory := hmemory
  parent := by
    intro a i _ hlast
    obtain rfl := Option.some.inj hlast
    show ((chainIr n).insts a).parent = a
    have hinst : (chainIr n).insts a =
        if a + 1 < n then ⟨.jump, .void, [some (.block (a + 1))], a⟩
        else ⟨.ret, .void, [], a⟩ := rfl
    rw [hinst]
    split <;> rfl
  root := rfl
  uses := by
    rintro b hb ⟨i, k⟩
    rw [reachable_chain hn] at hb
    constructor
    · intro hu
      cases b with
      | zero => cases hu
      | succ b =>
          have huses : (chainIr n).uses (.block (b + 1)) = [⟨b, 0⟩] := if_pos hb
          rw [huses, List.mem_singleton] at hu
          obtain ⟨rfl, rfl⟩ := Use.mk.inj hu
          have hinst : (chainIr n).insts i = ⟨.jump, .void, [some (.block (i + 1))], i⟩ :=
            if_pos hb
          refine ⟨i, (reachable_chain hn).mpr (by omega), rfl, ?_, operand_chain.mpr ⟨rfl, rfl, hb⟩⟩
          rw [hinst]
          exact fun h => by cases h
    · rintro ⟨a, -, -, -, hop⟩
      obtain ⟨hk, rfl, hlt⟩ := operand_chain.mp hop
      have huses : (chainIr n).uses (.block (i + 1)) = [⟨i, 0⟩] := if_pos hlt
      rw [huses, List.mem_singleton]
      exact congrArg (Use.mk i) hk
  oldest := by
    intro fuel s hs j b hj hb
    have hpost := visit_chain fuel visitStart s 0 hn (fun _ _ => rfl) hs
    replace hpost : s.postorder = (List.range' 0 (n - 0)).reverse := hpost
    have hjlt := (List.getElem?_eq_some_iff.mp hj).1
    rw [hpost, List.length_reverse, List.length_range'] at hjlt
    have hget : ∀ k, k < n → s.postorder[k]? = some (n - 1 - k) := by
      intro k hk
      rw [hpost, List.getElem?_reverse (by rw [List.length_range']; omega), List.length_range',
        List.getElem?_range' (by omega)]
      simp only [Option.some.injEq]
      omega
    rw [hget j (by omega)] at hj
    obtain rfl := Option.some.inj hj
    obtain ⟨c, hc⟩ : ∃ c, n - 1 - j = c + 1 := ⟨n - 1 - j - 1, by omega⟩
    refine ⟨j + 1, c, ?_, ?_, by omega⟩
    · rw [hc, blockPredecessors_chain (by omega)]
      rfl
    · rw [hget _ (by omega)]
      simp only [Option.some.injEq]
      omega

theorem ncard_reachable_chain (hn : 0 < n) :
    {b | Reachable (cfgEdge (chainIr n)) 0 b}.ncard = n := by
  have hset : {b | Reachable (cfgEdge (chainIr n)) 0 b} = (Finset.range n : Set ℕ) := by
    ext b
    rw [Set.mem_ofPred_eq, reachable_chain hn, Finset.coe_range, Set.mem_Iio]
  rw [hset, Set.ncard_coe_finset, Finset.card_range]

end Chain

/-! ## A join and a loop -/

/-- Six blocks: `0` branches to `1` and `2`, which join in `3`; `3` is the head of a loop over
`4`, and `5` is behind it. -/
def joinLoop : Ir where
  insts := fun i =>
    match i with
    | 0 => ⟨.jumpCond, .void, [some (.block 1), some (.block 2), some (.const 0)], 0⟩
    | 1 => ⟨.jump, .void, [some (.block 3)], 1⟩
    | 2 => ⟨.jump, .void, [some (.block 3)], 2⟩
    | 3 => ⟨.jumpCond, .void, [some (.block 4), some (.block 5), some (.const 0)], 3⟩
    | 4 => ⟨.jump, .void, [some (.block 3)], 4⟩
    | i => ⟨.ret, .void, [], i⟩
  blocks := fun b => [b]
  consts := fun _ => 1
  uses := fun v =>
    match v with
    | .block 1 => [⟨0, 0⟩]
    | .block 2 => [⟨0, 1⟩]
    | .block 3 => [⟨1, 0⟩, ⟨2, 0⟩, ⟨4, 0⟩]
    | .block 4 => [⟨3, 0⟩]
    | .block 5 => [⟨3, 1⟩]
    | .const 0 => [⟨0, 2⟩, ⟨3, 2⟩]
    | _ => []
  instCount := 6
  blockCount := 6
  constCount := 1

theorem reachable_joinLoop {b : ℕ} : Reachable (cfgEdge joinLoop) 0 b ↔ b < 6 := by
  constructor
  · have hall : ∀ a < 5, ∀ b ∈ blockSuccessors joinLoop a, b < 6 := by decide
    have hedge : ∀ a b, cfgEdge joinLoop a b → b < 6 := by
      intro a b hE
      by_cases ha : a < 5
      · exact hall a ha b hE
      · obtain ⟨a, rfl⟩ := Nat.exists_eq_add_of_le' (Nat.le_of_not_lt ha)
        cases hE
    rintro ⟨p, hp⟩
    cases hp with
    | root => decide
    | step _ hE => exact hedge _ b hE
  · have hfrom : ∀ b < 6, b = 0 ∨ ∃ a < b, b ∈ blockSuccessors joinLoop a := by decide
    intro hb
    induction b using Nat.strong_induction_on with
    | h b ih =>
        rcases hfrom b hb with rfl | ⟨a, hlt, hE⟩
        · exact .root
        · exact (ih a hlt (hlt.trans hb)).step hE

theorem postorder_joinLoop {fuel : ℕ} {s : VisitState}
    (h : visit joinLoop fuel visitStart 0 = some s) : s.postorder = [4, 5, 3, 1, 2, 0] := by
  obtain ⟨s', hs', hpost⟩ : ∃ s', visit joinLoop 7 visitStart 0 = some s' ∧
      s'.postorder = [4, 5, 3, 1, 2, 0] := ⟨_, rfl, rfl⟩
  have hmax := visit_mono (Nat.le_max_left fuel 7) _ _ _ h
  have hmax' := visit_mono (Nat.le_max_right fuel 7) _ _ _ hs'
  obtain rfl := Option.some.inj (hmax.symm.trans hmax')
  exact hpost

theorem joinLoop_shape : CfgShape joinLoop 0 where
  allocated := fun b hb => reachable_joinLoop.mp hb
  memory := by decide
  parent := by
    intro a i ha hlast
    obtain rfl := Option.some.inj hlast
    have hall : ∀ a < 6, (joinLoop.insts a).parent = a := by decide
    exact hall a (reachable_joinLoop.mp ha)
  root := rfl
  uses := by
    intro b hb u
    rw [reachable_joinLoop] at hb
    constructor
    · intro hu
      have hall : ∀ b < 6, ∀ u ∈ joinLoop.uses (.block b), u.inst < 6 ∧
          (joinLoop.insts u.inst).type ≠ .phi ∧ joinLoop.operand u = some (.block b) := by decide
      obtain ⟨hlt, htype, hop⟩ := hall b hb u hu
      exact ⟨u.inst, reachable_joinLoop.mpr hlt, rfl, htype, hop⟩
    · rintro ⟨a, ha, hlast, -, hop⟩
      obtain rfl := Option.some.inj hlast
      have hlength : ∀ i < 6, (joinLoop.insts i).uses.length ≤ 3 := by decide
      have hall : ∀ i < 6, ∀ k < 3, ∀ b < 6,
          joinLoop.operand ⟨i, k⟩ ≠ some (.block b) ∨ ⟨i, k⟩ ∈ joinLoop.uses (.block b) := by
        decide
      have hinst := reachable_joinLoop.mp ha
      have hslot : u.slot < 3 := by
        have hsome := Option.join_eq_some_iff.mp hop
        exact (List.getElem?_eq_some_iff.mp hsome).1.trans_le (hlength _ hinst)
      exact (hall u.inst hinst u.slot hslot b hb).resolve_left (not_not_intro hop)
  oldest := by
    intro fuel s hs j b hj hb
    rw [postorder_joinLoop hs] at hj ⊢
    have hall : ∀ j < 6, ∀ b ∈ [4, 5, 3, 1, 2, 0][j]?, b ≠ 0 → ∃ i < 6,
        ∃ a ∈ (blockPredecessors joinLoop b).head?, [4, 5, 3, 1, 2, 0][i]? = some a ∧ j < i := by
      decide
    obtain ⟨i, -, a, ha, hi⟩ := hall j (List.getElem?_eq_some_iff.mp hj).1 b hj hb
    exact ⟨i, a, ha, hi⟩

theorem ncard_reachable_joinLoop : {b | Reachable (cfgEdge joinLoop) 0 b}.ncard = 6 := by
  have hset : {b | Reachable (cfgEdge joinLoop) 0 b} = (Finset.range 6 : Set ℕ) := by
    ext b
    rw [Set.mem_ofPred_eq, reachable_joinLoop, Finset.coe_range, Set.mem_Iio]
  rw [hset, Set.ncard_coe_finset, Finset.card_range]

/-- The theorem at `joinLoop`. -/
theorem dominatorsCompute_correct_iff_joinLoop : ComputesDominators joinLoop 0 ↔
    {b | Reachable (cfgEdge joinLoop) 0 b}.ncard ≤ 250 ∧
      ∀ d, (dominatedBlocks joinLoop 0 d).ncard ≤ 16 :=
  dominatorsCompute_correct_iff joinLoop 0 joinLoop_shape

/-- **The postorder does not fit.**  A chain of 251 blocks has the right shape, and the
last block of its postorder is stored past the end of the buffer. -/
theorem dominatorsCompute_not_correct : CfgShape (chainIr 251) 0 ∧
    ¬ ComputesDominators (chainIr 251) 0 := by
  refine ⟨chainIr_shape (by decide) (by decide), ?_⟩
  rintro ⟨fuel₀, hall⟩
  obtain ⟨doms, hdoms, hstored, -⟩ := hall fuel₀ le_rfl
  have hle := (postorderStored_iff _).mp hstored
  rw [← length_postorder hdoms, ncard_reachable_chain (by decide)] at hle
  omega
