/-
# Edges back to the entry

`dominators_compute` never reads the dominator of the entry while it looks for the
dominators of the other blocks.  So on a graph with edges back to the entry the other
entries of its array are those that it computes on the graph without them
(`Ir.withoutEdgesTo`), whatever becomes of the entry itself.
-/
import MCompiler.DominatorsCorrect

open FlowGraph ParentTree DominatorFixpoint

/-! ## The graph without these edges -/

/-- The jumps to `entry` lead nowhere. -/
def Ir.withoutEdgesTo (ir : Ir) (entry : ℕ) : Ir :=
  { ir with
    insts := fun i => { ir.insts i with
      uses := (ir.insts i).uses.map fun v => if useBlock v = some entry then none else v }
    uses := fun v => if v = .block entry then [] else ir.uses v }

section Graph

variable {ir : Ir} {entry : ℕ}

theorem operand_withoutEdgesTo (u : Use) :
    (ir.withoutEdgesTo entry).operand u =
      if ir.operand u = some (.block entry) then none else ir.operand u := by
  show (((ir.insts u.inst).uses.map _)[u.slot]?).join = _
  rw [List.getElem?_map]
  unfold Ir.operand
  cases (ir.insts u.inst).uses[u.slot]? with
  | none => rfl
  | some v =>
      show (if useBlock v = some entry then none else v) = if v = some (.block entry) then none else v
      simp only [useBlock_eq_some]

theorem blockSuccessors_withoutEdgesTo (a : ℕ) :
    blockSuccessors (ir.withoutEdgesTo entry) a = (blockSuccessors ir a).filter (· ≠ entry) := by
  have huses : ∀ l : List (Option Value),
      (l.map fun v => if useBlock v = some entry then none else v).filterMap useBlock =
        (l.filterMap useBlock).filter (· ≠ entry) := by
    intro l
    rw [List.filterMap_map, List.filter_filterMap]
    congr 1
    funext v
    show useBlock (if useBlock v = some entry then none else v) = (useBlock v).filter _
    cases hv : useBlock v with
    | none => simp [hv]
    | some b =>
        by_cases hb : b = entry
        · simp [hb, useBlock, Option.filter]
        · simp [hb, hv, Option.filter]
  have hlast : blockLastInstruction (ir.withoutEdgesTo entry) a = blockLastInstruction ir a := rfl
  unfold blockSuccessors
  rw [hlast]
  cases blockLastInstruction ir a with
  | none => rfl
  | some i =>
      have htype : ((ir.withoutEdgesTo entry).insts i).type = (ir.insts i).type := rfl
      dsimp only
      rw [htype]
      cases (ir.insts i).type
      case phi => rfl
      all_goals exact huses _

theorem cfgEdge_withoutEdgesTo {a b : ℕ} :
    cfgEdge (ir.withoutEdgesTo entry) a b ↔ cfgEdge ir a b ∧ b ≠ entry := by
  unfold cfgEdge
  rw [blockSuccessors_withoutEdgesTo, List.mem_filter, decide_eq_true_iff]

theorem cfgEdge_withoutEdgesTo_eq :
    cfgEdge (ir.withoutEdgesTo entry) = fun a b => cfgEdge ir a b ∧ b ≠ entry := by
  funext a b
  exact propext cfgEdge_withoutEdgesTo

theorem blockPredecessors_withoutEdgesTo {b : ℕ} (hb : b ≠ entry) :
    blockPredecessors (ir.withoutEdgesTo entry) b = blockPredecessors ir b := by
  have huses : (ir.withoutEdgesTo entry).uses (.block b) = ir.uses (.block b) := by
    apply if_neg
    rintro ⟨⟩
    exact hb rfl
  unfold blockPredecessors
  rw [huses]
  rfl

theorem reachable_withoutEdgesTo {b : ℕ} :
    Reachable (cfgEdge (ir.withoutEdgesTo entry)) entry b ↔ Reachable (cfgEdge ir) entry b := by
  rw [cfgEdge_withoutEdgesTo_eq]
  exact reachable_cut

theorem isIDom_withoutEdgesTo {d b : ℕ} :
    IsIDom (cfgEdge (ir.withoutEdgesTo entry)) entry d b ↔ IsIDom (cfgEdge ir) entry d b := by
  rw [cfgEdge_withoutEdgesTo_eq]
  exact isIDom_cut

theorem dominates_withoutEdgesTo {d b : ℕ} :
    Dominates (cfgEdge (ir.withoutEdgesTo entry)) entry d b ↔ Dominates (cfgEdge ir) entry d b := by
  rw [cfgEdge_withoutEdgesTo_eq]
  exact dominates_cut

theorem dominatedBlocks_withoutEdgesTo (d : ℕ) :
    dominatedBlocks (ir.withoutEdgesTo entry) entry d = dominatedBlocks ir entry d := by
  ext b
  exact and_congr reachable_withoutEdgesTo isIDom_withoutEdgesTo

/-! ## The postorder -/

/-- **`_visit` does not see the edges** to a block that has been visited. -/
theorem visit_withoutEdgesTo (fuel : ℕ) : ∀ s s' block, s.nodeToNum entry ≠ none ∨ block = entry →
    visit ir fuel s block = some s' →
    visit (ir.withoutEdgesTo entry) fuel s block = some s' := by
  induction fuel with
  | zero =>
      intro s s' block _ h
      cases h
  | succ fuel ih =>
      intro s s' block hentry h
      unfold visit at h ⊢
      cases hnum : s.nodeToNum block with
      | some n => rwa [hnum] at h
      | none =>
          rw [hnum] at h
          obtain ⟨s₁, hs₁, rfl⟩ := Option.map_eq_some_iff.mp h
          -- once the entry is visited, a call for it changes nothing
          have hloop : ∀ (blocks : List ℕ) s₀, s₀.nodeToNum entry ≠ none →
              blocks.foldlM (visit ir fuel) s₀ = some s₁ →
              (blocks.filter (· ≠ entry)).foldlM (visit (ir.withoutEdgesTo entry) fuel) s₀ =
                some s₁ := by
            intro blocks
            induction blocks with
            | nil => exact fun s₀ _ hs₀ => hs₀
            | cons b blocks ihb =>
                intro s₀ hvisited hs₀
                obtain ⟨s₂, hs₂, hrest⟩ := Option.bind_eq_some_iff.mp hs₀
                by_cases hb : b = entry
                · obtain ⟨n, hn⟩ := Option.ne_none_iff_exists'.mp hvisited
                  have hsame : s₂ = s₀ := by
                    cases fuel with
                    | zero => cases hs₂
                    | succ fuel =>
                        unfold visit at hs₂
                        rw [hb, hn] at hs₂
                        exact (Option.some.inj hs₂).symm
                  rw [hsame] at hrest
                  rw [List.filter_cons_of_neg (by simpa using hb)]
                  exact ihb s₀ hvisited hrest
                · obtain ⟨new, hcall⟩ := visit_spec (R := fun _ => True)
                    (fun _ _ _ _ => trivial) fuel s₀ s₂ b trivial hs₂
                  rw [List.filter_cons_of_pos (by simpa using hb)]
                  apply Option.bind_eq_some_iff.mpr
                  refine ⟨s₂, ih s₀ s₂ b (Or.inl hvisited) hs₂, ?_⟩
                  exact ihb s₂ (hcall.spec.visited hvisited) hrest
          refine Option.map_eq_some_iff.mpr ⟨s₁, ?_, rfl⟩
          rw [blockSuccessors_withoutEdgesTo]
          apply hloop _ _ _ hs₁
          by_cases hb : entry = block
          · rw [hb, setNumber_self]
            exact Option.some_ne_none _
          · rw [setNumber_of_ne hb]
            exact hentry.resolve_right (Ne.symm hb)

/-- The two graphs have the same postorder. -/
theorem visit_entry_withoutEdgesTo {fuel : ℕ} {s : VisitState}
    (h : visit ir fuel visitStart entry = some s) :
    visit (ir.withoutEdgesTo entry) fuel visitStart entry = some s :=
  visit_withoutEdgesTo fuel visitStart s entry (Or.inr rfl) h

end Graph

/-! ## The entry of the array for the entry -/

section Intersect

variable {doms : List ℕ} {r m x : ℕ}

/-- Climbing to at most `r` does not read the entry `r`. -/
theorem climb_set {b : ℕ} (hb : b ≤ r) (fuel a : ℕ) :
    climb (doms.set r x) b fuel a = climb doms b fuel a := by
  induction fuel generalizing a with
  | zero => rfl
  | succ fuel ih =>
      unfold climb
      split
      · rename_i hlt
        rw [List.getElem?_set_ne (by omega)]
        congr 1
        funext c
        exact ih c
      · rfl

variable (hlen : doms.length = r + 1) (htree : DomTree doms r m)
include hlen htree

theorem intersect_set (fuel : ℕ) : ∀ a b, m ≤ a → a ≤ r → m ≤ b → b ≤ r →
    (r - a) + (r - b) < fuel →
    intersect (doms.set r x) fuel a b = intersect doms fuel a b := by
  induction fuel with
  | zero =>
      intro a b _ _ _ _ h
      omega
  | succ fuel ih =>
      intro a b hma har hmb hbr hfuel
      unfold intersect
      split
      · rfl
      · rename_i hne
        obtain ⟨a', ha', haa', hba', -⟩ :=
          climb_spec hlen htree hbr (fuel + 1) a hma har (by omega)
        obtain ⟨hmema, hlea⟩ := htree.ancestor_mem ⟨hma, har⟩ haa'
        obtain ⟨b', hb', hbb', hab', -⟩ :=
          climb_spec hlen htree hmema.2 (fuel + 1) b hmb hbr (by omega)
        obtain ⟨hmemb, hleb⟩ := htree.ancestor_mem ⟨hmb, hbr⟩ hbb'
        rw [climb_set hbr, ha', Option.bind_eq_bind, Option.bind_some, Option.bind_some,
          climb_set hmema.2, hb', Option.bind_some, Option.bind_some]
        exact ih a' b' hmema.1 hmema.2 hmemb.1 hmemb.2 (by omega)

/-- The loop over the predecessors does not depend on the entry `r`. -/
theorem meetPredecessors_set (fuel : ℕ) (hr : r < 2 ^ 31) (hx : x ≤ r) (hfuel : 2 * r < fuel)
    (hunset : ∀ y, y < m → doms[y]? = some sizeMax) (ns : List ℕ) (hns : ∀ p ∈ ns, p ≤ r) :
    ∀ c₀, m ≤ c₀ → c₀ ≤ r → ns.foldlM (meetPredecessor (doms.set r x) fuel) c₀ =
      ns.foldlM (meetPredecessor doms fuel) c₀ := by
  induction ns with
  | nil =>
      intro c₀ _ _
      rfl
  | cons p ns ih =>
      intro c₀ hmc hcr
      have hpr := hns p List.mem_cons_self
      have hsame : meetPredecessor (doms.set r x) fuel c₀ p = meetPredecessor doms fuel c₀ p := by
        unfold meetPredecessor
        rcases Nat.lt_or_ge p m with hpm | hpm
        · have hmr := htree.root.1
          rw [List.getElem?_set_ne (by omega), hunset p hpm]
          rfl
        · -- the entries that are read are set in both arrays
          have hval := htree.closed ⟨hpm, hpr⟩
          have hset : ∃ y, (doms.set r x)[p]? = some y ∧ y ≤ r := by
            by_cases hp : p = r
            · refine ⟨x, ?_, hx⟩
              rw [hp, List.getElem?_set_self (by omega)]
            · refine ⟨parentOf doms p, ?_, hval.2⟩
              rw [List.getElem?_set_ne (Ne.symm hp), getElem?_eq_parentOf (by omega)]
          obtain ⟨y, hy, hyr⟩ := hset
          have hle : parentOf doms p ≤ r := hval.2
          have hlarge : r < sizeMax := by
            unfold sizeMax
            omega
          rw [hy, getElem?_eq_parentOf (by omega), Option.bind_eq_bind, Option.bind_some,
            Option.bind_some, if_neg (by omega), if_neg (by omega)]
          exact intersect_set hlen htree fuel p c₀ hpm hpr hmc hcr (by omega)
      obtain ⟨c₁, hc₁, hanc, -⟩ := meetPredecessors_spec hlen htree fuel hr hfuel hunset [p]
        (by simpa using hpr) c₀ hmc hcr
      have hmeet : meetPredecessor doms fuel c₀ p = some c₁ := by
        rw [List.foldlM_cons] at hc₁
        obtain ⟨c, hc, hrest⟩ := Option.bind_eq_some_iff.mp hc₁
        obtain rfl := Option.some.inj hrest
        exact hc
      obtain ⟨hmem, -⟩ := htree.ancestor_mem ⟨hmc, hcr⟩ hanc
      rw [List.foldlM_cons, List.foldlM_cons, hsame, hmeet]
      exact ih (fun q hq => hns q (List.mem_cons_of_mem _ hq)) c₁ hmem.1 hmem.2

end Intersect

/-! ## A round -/

/-- A round that does not bring a block closer to the root changes nothing. -/
theorem RoundSpec.eq_or_distance_lt {ir : Ir} {s : VisitState} {doms doms' : List ℕ}
    {changed changed' : Bool} {i j : ℕ} (hspec : RoundSpec ir s doms doms' changed changed' 0 i)
    (hinv : DomsInv ir s doms 0 j) : doms' = doms ∨
      distance doms' (s.postorder.length - 1) < distance doms (s.postorder.length - 1) := by
  by_cases hlt : ∃ y < s.postorder.length - 1, parentOf doms y < parentOf doms' y
  · obtain ⟨y, hy, hlt⟩ := hlt
    exact Or.inr (hspec.distance_lt_of_lt hy hlt)
  · left
    have hlength : doms'.length = doms.length := hspec.inv.length.trans hinv.length.symm
    apply List.ext_getElem hlength
    intro y hy' hy
    have hsame : parentOf doms' y = parentOf doms y := by
      rw [hinv.length] at hy
      by_cases hroot : y = s.postorder.length - 1
      · rw [hroot, hspec.inv.inv.climbs.fix, hinv.inv.climbs.fix]
      · apply Nat.le_antisymm _ (hspec.le rfl y)
        exact Nat.le_of_not_lt fun hlt' => hlt ⟨y, by omega, hlt'⟩
    have hget := getElem?_eq_parentOf hy
    have hget' := getElem?_eq_parentOf hy'
    rw [List.getElem?_eq_getElem hy] at hget
    rw [List.getElem?_eq_getElem hy', hsame] at hget'
    exact Option.some.inj (hget'.trans hget.symm)

section Round

variable {ir : Ir} {entry fuel : ℕ} {s : VisitState}
  (h : NumberedCfg (ir.withoutEdgesTo entry) entry s) {doms : List ℕ} {m i j x : ℕ}
include h

/-- The new dominator of a block other than the entry is the same on both graphs. -/
theorem NumberedCfg.newDominator_set (hfuel : 2 * s.postorder.length < fuel)
    (hinv : DomsInv (ir.withoutEdgesTo entry) s doms m (j + 1)) (hx : x ≤ s.postorder.length - 1) :
    newDominator ir s.nodeToNum s.postorder (doms.set (s.postorder.length - 1) x) fuel j =
      newDominator (ir.withoutEdgesTo entry) s.nodeToNum s.postorder doms fuel j := by
  have hjr : j < s.postorder.length - 1 := hinv.inv.bound.2
  have hmj := hinv.inv.bound.1
  have hfits := h.fits
  have hb : s.postorder[j]? = some s.postorder[j] := List.getElem?_eq_getElem (by omega)
  have hpreds : blockPredecessors (ir.withoutEdgesTo entry) _ = blockPredecessors ir _ :=
    blockPredecessors_withoutEdgesTo (h.postorder.ne_entry hb hjr)
  obtain ⟨p, ns, bs, hbs, hmap, -, hlt, hmem⟩ := h.predecessors hb hjr
  have hnode : ∀ q ∈ p :: ns, q ≤ s.postorder.length - 1 := fun q hq =>
    (h.numbered.le q j ((hmem q).mp hq)).1
  unfold newDominator
  rw [hb, Option.bind_eq_bind, Option.bind_some, Option.bind_some, ← hpreds, hbs]
  cases bs with
  | nil => cases hmap
  | cons b bs =>
      obtain ⟨hb', hbs'⟩ := List.cons_eq_cons.mp hmap
      show (dominatorsGetNumber s.nodeToNum b).bind _ = (dominatorsGetNumber s.nodeToNum b).bind _
      rw [hb', Option.bind_some, Option.bind_some]
      refine (foldlM_numbers s.nodeToNum _ fuel bs ns hbs' p).trans (Eq.trans ?_
        (foldlM_numbers s.nodeToNum _ fuel bs ns hbs' p).symm)
      exact meetPredecessors_set (hinv.length.trans (by omega)) hinv.inv.climbs fuel (by omega) hx
        (by omega) hinv.unset ns (fun q hq => hnode q (List.mem_cons_of_mem _ hq)) p (by omega)
        (hnode p List.mem_cons_self)

/-- **The rest of a round** is the round on the graph without the edges. -/
theorem NumberedCfg.round_set (hfuel : 2 * s.postorder.length < fuel)
    (hx : x ≤ s.postorder.length - 1) (i : ℕ) :
    ∀ m doms changed, DomsInv (ir.withoutEdgesTo entry) s doms m i →
      (List.range i).reverse.foldlM (updateDominator ir s.nodeToNum s.postorder fuel)
          (doms.set (s.postorder.length - 1) x, changed) =
        ((List.range i).reverse.foldlM
          (updateDominator (ir.withoutEdgesTo entry) s.nodeToNum s.postorder fuel)
          (doms, changed)).map fun r => (r.1.set (s.postorder.length - 1) x, r.2) := by
  induction i with
  | zero =>
      intro m doms changed _
      rfl
  | succ j ih =>
      intro m doms changed hinv
      obtain ⟨c, hstep, -, hinv'⟩ := h.updateDominator_spec hfuel hinv changed
      have hjr := hinv.inv.bound.2
      have hset : updateDominator ir s.nodeToNum s.postorder fuel
          (doms.set (s.postorder.length - 1) x, changed) j =
          some ((doms.set j c).set (s.postorder.length - 1) x, changed || doms[j]? ≠ some c) := by
        unfold updateDominator at hstep ⊢
        dsimp only at hstep ⊢
        rw [h.newDominator_set hfuel hinv hx, List.getElem?_set_ne (by omega)]
        obtain ⟨c', hc', hrest⟩ := Option.bind_eq_some_iff.mp hstep
        obtain ⟨old, hold, hrest⟩ := Option.bind_eq_some_iff.mp hrest
        obtain ⟨hdoms, hchanged⟩ := Prod.mk.inj (Option.some.inj hrest)
        rw [hc', hold, Option.bind_eq_bind, Option.bind_some, Option.bind_some]
        rw [hold] at hchanged
        rw [← hdoms, ← hchanged, List.set_comm x c' (show s.postorder.length - 1 ≠ j by omega)]
        rfl
      rw [List.range_succ, List.reverse_append, List.reverse_singleton, List.singleton_append,
        List.foldlM_cons, List.foldlM_cons, hstep, hset]
      exact ih _ _ _ hinv'

/-- A round: the entry first, then the others. -/
theorem NumberedCfg.dominatorsRound_set (hfuel : 2 * s.postorder.length < fuel) {x' : ℕ}
    (hinv : DomsInv (ir.withoutEdgesTo entry) s doms m (s.postorder.length - 1))
    (hx' : x' ≤ s.postorder.length - 1)
    (hnew : newDominator ir s.nodeToNum s.postorder (doms.set (s.postorder.length - 1) x) fuel
      (s.postorder.length - 1) = some x') :
    ∃ doms' changed, dominatorsRound ir s.nodeToNum s.postorder s.postorder.length fuel
        (doms.set (s.postorder.length - 1) x) =
          some (doms'.set (s.postorder.length - 1) x', changed) ∧
      RoundSpec (ir.withoutEdgesTo entry) s doms doms' (x ≠ x') changed m
        (s.postorder.length - 1) := by
  have hpos := h.postorder.length_pos
  obtain ⟨doms', changed, hround, hspec⟩ := h.round_spec hfuel _ m doms (x ≠ x') hinv
  refine ⟨doms', changed, ?_, hspec⟩
  have hroot : updateDominator ir s.nodeToNum s.postorder fuel
      (doms.set (s.postorder.length - 1) x, false) (s.postorder.length - 1) =
      some (doms.set (s.postorder.length - 1) x', decide (x ≠ x')) := by
    unfold updateDominator
    dsimp only
    rw [hnew, List.getElem?_set_self (by rw [hinv.length]; omega), Option.bind_eq_bind,
      Option.bind_some, Option.bind_some, List.set_set, Bool.false_or]
    rfl
  rw [dominatorsRound, Loop.reverse_range hpos, List.foldlM_cons, hroot]
  refine (h.round_set hfuel hx' _ m doms _ hinv).trans ?_
  rw [hround]
  rfl

/-- The predecessors of the entry, by their numbers. -/
def backNumbers (ir : Ir) (entry : ℕ) (s : VisitState) : List ℕ :=
  (blockPredecessors ir entry).map (s.postorder.idxOf ·)

variable (hback : ∀ a ∈ blockPredecessors ir entry, Reachable (cfgEdge ir) entry a)
include hback

theorem NumberedCfg.exists_backNumber {a : ℕ} (ha : a ∈ blockPredecessors ir entry) :
    ∃ k : ℕ, s.postorder[k]? = some a :=
  h.postorder.exists_number (reachable_withoutEdgesTo.mpr (hback a ha))

theorem NumberedCfg.backNumber_le {n : ℕ} (hn : n ∈ backNumbers ir entry s) :
    n ≤ s.postorder.length - 1 := by
  obtain ⟨a, ha, rfl⟩ := List.mem_map.mp hn
  obtain ⟨k, hk⟩ := h.exists_backNumber hback ha
  have hlt := (List.getElem?_eq_some_iff.mp hk).1
  rw [h.postorder.idxOf_eq hk]
  omega

/-- The new dominator of the entry. -/
theorem NumberedCfg.newDominator_root (array : List ℕ) :
    newDominator ir s.nodeToNum s.postorder array fuel (s.postorder.length - 1) =
      match backNumbers ir entry s with
      | [] => array[s.postorder.length - 1]?
      | n :: ns => ns.foldlM (meetPredecessor array fuel) n := by
  exact h.postorder.newDominator_eq h.fits h.postorder.getElem?_root
    (fun a ha => reachable_withoutEdgesTo.mpr (hback a ha)) array fuel

/-- The array `doms` gives the entry the dominator `x`, whatever it was. -/
def RootIs (ir : Ir) (entry : ℕ) (s : VisitState) (fuel : ℕ) (doms : List ℕ) (x : ℕ) : Prop :=
  ∀ y ≤ s.postorder.length - 1, (backNumbers ir entry s = [] → y = s.postorder.length - 1) →
    newDominator ir s.nodeToNum s.postorder (doms.set (s.postorder.length - 1) y) fuel
      (s.postorder.length - 1) = some x

/-- What a dominator of the entry is, in a tree on all blocks: the nearest common ancestor
of the predecessors of the entry. -/
structure IsRootMeet (ir : Ir) (entry : ℕ) (s : VisitState) (doms : List ℕ) (x : ℕ) : Prop where
  le : x ≤ s.postorder.length - 1
  nil : backNumbers ir entry s = [] → x = s.postorder.length - 1
  common : ∀ n ∈ backNumbers ir entry s, Ancestor (parentOf doms) n x
  nearest : backNumbers ir entry s ≠ [] →
    ∀ y, (∀ n ∈ backNumbers ir entry s, Ancestor (parentOf doms) n y) →
      Ancestor (parentOf doms) x y

/-- Once all other blocks have dominators, the entry gets the common one of its predecessors. -/
theorem NumberedCfg.exists_rootIs (hfuel : 2 * s.postorder.length < fuel)
    (hinv : DomsInv (ir.withoutEdgesTo entry) s doms 0 i) :
    ∃ x, RootIs ir entry s fuel doms x ∧ IsRootMeet ir entry s doms x := by
  have hpos := h.postorder.length_pos
  have hfits := h.fits
  have hle : ∀ n ∈ backNumbers ir entry s, n ≤ s.postorder.length - 1 := fun n hn =>
    h.backNumber_le hback hn
  cases hns : backNumbers ir entry s with
  | nil =>
      refine ⟨s.postorder.length - 1, ?_, le_rfl, fun _ => rfl, ?_, fun hne => absurd hns hne⟩
      · intro y hy hroot
        rw [h.newDominator_root hback, hns, hroot hns]
        exact List.getElem?_set_self (by rw [hinv.length]; omega)
      · rw [hns]
        intro n hn
        cases hn
  | cons n ns =>
      rw [hns] at hle
      have hn := hle n List.mem_cons_self
      have hrest : ∀ p ∈ ns, p ≤ s.postorder.length - 1 := fun p hp =>
        hle p (List.mem_cons_of_mem _ hp)
      obtain ⟨c, hc, hanc, hcommon, hnearest⟩ := meetPredecessors_spec
        (hinv.length.trans (by omega)) hinv.inv.climbs fuel (by omega) (by omega) hinv.unset ns
        hrest n (Nat.zero_le n) hn
      obtain ⟨hmem, -⟩ := hinv.inv.climbs.ancestor_mem ⟨Nat.zero_le n, hn⟩ hanc
      refine ⟨c, ?_, hmem.2, fun hnil => absurd (hns.symm.trans hnil) (List.cons_ne_nil _ _), ?_, ?_⟩
      · intro y hy _
        rw [h.newDominator_root hback, hns]
        refine Eq.trans ?_ hc
        exact meetPredecessors_set (hinv.length.trans (by omega)) hinv.inv.climbs fuel (by omega)
          hy (by omega) hinv.unset ns hrest n (Nat.zero_le n) hn
      · rw [hns]
        intro p hp
        rcases List.mem_cons.mp hp with rfl | hp
        · exact hanc
        · exact hcommon p hp (Nat.zero_le p)
      · rw [hns]
        intro _ y hy
        exact hnearest y (hy n List.mem_cons_self) fun p hp _ => hy p (List.mem_cons_of_mem _ hp)

/-- In the first round the other blocks are not set yet: the entry gets the number of its
oldest predecessor. -/
theorem NumberedCfg.rootFirst (hfuel : 2 * s.postorder.length < fuel)
    (hinv : DomsInv (ir.withoutEdgesTo entry) s doms (s.postorder.length - 1)
      (s.postorder.length - 1))
    (hself : ∀ n ns, backNumbers ir entry s = n :: ns → s.postorder.length - 1 ∈ ns →
      n = s.postorder.length - 1) :
    newDominator ir s.nodeToNum s.postorder doms fuel (s.postorder.length - 1) =
      some ((backNumbers ir entry s).head?.getD (s.postorder.length - 1)) := by
  have hpos := h.postorder.length_pos
  have hfits := h.fits
  have hlen : s.postorder.length - 1 < doms.length := by
    rw [hinv.length]
    omega
  rw [h.newDominator_root hback]
  cases hns : backNumbers ir entry s with
  | nil =>
      show doms[s.postorder.length - 1]? = _
      rw [getElem?_eq_parentOf hlen, hinv.inv.climbs.fix]
      rfl
  | cons n ns =>
      have hle : ∀ p ∈ n :: ns, p ≤ s.postorder.length - 1 := fun p hp =>
        h.backNumber_le hback (hns ▸ hp)
      show ns.foldlM (meetPredecessor doms fuel) n = some n
      by_cases hn : n = s.postorder.length - 1
      · -- the nearest common ancestor of the entry and anything is the entry
        obtain ⟨c, hc, hanc, -⟩ := meetPredecessors_spec (hinv.length.trans (by omega))
          hinv.inv.climbs fuel (by omega) (by omega) hinv.unset ns
          (fun p hp => hle p (List.mem_cons_of_mem _ hp)) n hn.ge hn.le
        rw [hn] at hanc
        rw [hc, hinv.inv.climbs.eq_root hanc, hn]
      · have hunset : ∀ p ∈ ns, doms[p]? = some sizeMax := by
          intro p hp
          apply hinv.unset
          apply Nat.lt_of_le_of_ne (hle p (List.mem_cons_of_mem _ hp))
          rintro rfl
          exact hn (hself n ns hns hp)
        clear hns hle hn
        induction ns with
        | nil => rfl
        | cons p ns ih =>
            have hskip : meetPredecessor doms fuel n p = some n := by
              unfold meetPredecessor
              rw [hunset p List.mem_cons_self]
              rfl
            rw [List.foldlM_cons, hskip]
            exact ih fun q hq => hunset q (List.mem_cons_of_mem _ hq)

/-! ## The rounds -/

/-- **The rounds once every other block has a dominator.**  A round either brings a
dominator closer to the root or gives the entry the dominator that it keeps. -/
theorem NumberedCfg.dominatorsLoop_set (hfuel : 2 * s.postorder.length < fuel) (rounds : ℕ) :
    ∀ n doms x, DomsInv (ir.withoutEdgesTo entry) s doms 0 0 → x ≤ s.postorder.length - 1 →
      (backNumbers ir entry s = [] → x = s.postorder.length - 1) →
      (2 * distance doms (s.postorder.length - 1) + 1 ≤ n ∨
        2 * distance doms (s.postorder.length - 1) ≤ n ∧ RootIs ir entry s fuel doms x) →
      n < rounds →
      ∃ doms' x', dominatorsLoop ir s.nodeToNum s.postorder s.postorder.length fuel rounds
          (doms.set (s.postorder.length - 1) x) = some (doms'.set (s.postorder.length - 1) x') ∧
        DomsFixpoint (ir.withoutEdgesTo entry) s doms' ∧ IsRootMeet ir entry s doms' x' := by
  induction rounds with
  | zero =>
      intro n doms x _ _ _ _ hn
      omega
  | succ rounds ih =>
      intro n doms x hinv hx hnil hmeasure hn
      obtain ⟨x', hroot, hmeet⟩ := h.exists_rootIs hback hfuel hinv
      have hrestart : DomsInv (ir.withoutEdgesTo entry) s doms 0 (s.postorder.length - 1) :=
        { hinv with inv := hinv.inv.restart }
      obtain ⟨doms', changed, hround, hspec⟩ :=
        h.dominatorsRound_set hfuel hrestart hmeet.le (hroot x hx hnil)
      unfold dominatorsLoop
      rw [hround]
      cases changed with
      | false =>
          obtain ⟨hsame, rfl⟩ := hspec.same rfl
          exact ⟨doms', x', rfl, ⟨hspec.inv, hspec.fix rfl rfl⟩, hmeet⟩
      | true =>
          rcases hspec.eq_or_distance_lt hinv with rfl | hlt
          · -- only the entry has changed, and now it stays as it is
            have hne : x ≠ x' := by
              obtain hne | ⟨y, -, hlt⟩ := hspec.lt rfl rfl
              · exact of_decide_eq_true hne
              · exact absurd hlt (Nat.lt_irrefl _)
            have hbound : 2 * distance doms' (s.postorder.length - 1) + 1 ≤ n := by
              refine hmeasure.resolve_right ?_
              rintro ⟨-, hx'⟩
              exact hne (Option.some.inj ((hx' x hx hnil).symm.trans (hroot x hx hnil)))
            exact ih (n - 1) doms' x' hspec.inv hmeet.le hmeet.nil (Or.inr ⟨by omega, hroot⟩)
              (by omega)
          · exact ih (n - 1) doms' x' hspec.inv hmeet.le hmeet.nil (Or.inl (by omega)) (by omega)

/-- **The `while` loop** on a graph with edges to the entry. -/
theorem NumberedCfg.dominatorsLoop_start (hfuel : 2 * s.postorder.length < fuel) {rounds : ℕ}
    (hself : ∀ n ns, backNumbers ir entry s = n :: ns → s.postorder.length - 1 ∈ ns →
      n = s.postorder.length - 1)
    (hrounds : 2 * ((s.postorder.length - 1) * (s.postorder.length - 1)) + 2 < rounds) :
    ∃ doms x, dominatorsLoop ir s.nodeToNum s.postorder s.postorder.length fuel rounds
        ((List.replicate s.postorder.length sizeMax).set (s.postorder.length - 1)
          (s.postorder.length - 1)) = some (doms.set (s.postorder.length - 1) x) ∧
      DomsFixpoint (ir.withoutEdgesTo entry) s doms ∧ IsRootMeet ir entry s doms x := by
  obtain ⟨rounds, rfl⟩ : ∃ k, rounds = k + 1 := ⟨rounds - 1, by omega⟩
  have hstart := h.domsInv_start
  have hnew := h.rootFirst hback hfuel hstart hself
  have hle : (backNumbers ir entry s).head?.getD (s.postorder.length - 1) ≤
      s.postorder.length - 1 := by
    cases hns : backNumbers ir entry s with
    | nil => exact le_rfl
    | cons n ns =>
        have hmem : n ∈ backNumbers ir entry s := by
          rw [hns]
          exact List.mem_cons_self
        exact h.backNumber_le hback hmem
  have hnil : backNumbers ir entry s = [] →
      (backNumbers ir entry s).head?.getD (s.postorder.length - 1) = s.postorder.length - 1 := by
    intro hns
    rw [hns]
    rfl
  generalize (backNumbers ir entry s).head?.getD (s.postorder.length - 1) = x at hnew hle hnil
  generalize hdoms : (List.replicate s.postorder.length sizeMax).set (s.postorder.length - 1)
    (s.postorder.length - 1) = doms at hstart hnew
  have hset : doms.set (s.postorder.length - 1) (s.postorder.length - 1) = doms := by
    rw [← hdoms, List.set_set]
  rw [← hset] at hnew ⊢
  obtain ⟨doms', changed, hround, hspec⟩ := h.dominatorsRound_set hfuel hstart hle hnew
  have hdist := distance_le doms' (s.postorder.length - 1)
  unfold dominatorsLoop
  rw [hround]
  cases changed with
  | false =>
      obtain ⟨hsame, rfl⟩ := hspec.same rfl
      have hroot := h.root_eq_zero hstart hspec
      obtain ⟨x', -, hmeet⟩ := h.exists_rootIs hback hfuel hspec.inv
      have hx' : x' = x := by
        have hle' := hmeet.le
        omega
      rw [hx'] at hmeet
      exact ⟨doms', x, rfl, ⟨hspec.inv, fun j hj => absurd hj (by omega)⟩, hmeet⟩
  | true =>
      exact h.dominatorsLoop_set hback hfuel rounds _ doms' x hspec.inv hle hnil (Or.inl le_rfl)
        (by omega)

end Round
