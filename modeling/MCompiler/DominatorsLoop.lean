/-
# The fixpoint loop of `dominators_compute`

`intersect` finds the nearest common ancestor of two nodes that have dominators, and the
loop over the predecessors finds the candidate of `DominatorFixpoint`.  So its invariant
holds throughout a round (`dominatorsRound_spec`), every round with a change brings some
dominator closer to the root, and when the rounds end the array holds the immediate
dominators (`dominatorsLoop_spec`).
-/
import MCompiler.DominatorsShape
import Mathlib.Algebra.Order.BigOperators.Group.Finset

open FlowGraph ParentTree DominatorFixpoint

/-! ## The array as a tree -/

/-- The entry of the array, as a parent function. -/
def parentOf (doms : List ℕ) (x : ℕ) : ℕ := doms.getD x 0

theorem parentOf_set {doms : List ℕ} {j : ℕ} (hj : j < doms.length) (c : ℕ) :
    parentOf (doms.set j c) = Function.update (parentOf doms) j c := by
  funext x
  show (doms.set j c).getD x 0 = Function.update (parentOf doms) j c x
  rw [List.getD_eq_getElem?_getD, List.getElem?_set]
  by_cases hx : j = x
  · subst hx
    rw [if_pos rfl, if_pos hj, Function.update_self]
    rfl
  · rw [if_neg hx, Function.update_of_ne (Ne.symm hx), parentOf, List.getD_eq_getElem?_getD]

theorem getElem?_eq_parentOf {doms : List ℕ} {x : ℕ} (hx : x < doms.length) :
    doms[x]? = some (parentOf doms x) := by
  rw [parentOf, List.getD_eq_getElem?_getD, List.getElem?_eq_getElem hx, Option.getD_some]

/-- The nodes from `m` on form a tree in the array. -/
abbrev DomTree (doms : List ℕ) (r m : ℕ) : Prop :=
  Climbs (parentOf doms) r (fun x => m ≤ x ∧ x ≤ r)

section Climb

variable {doms : List ℕ} {r : ℕ} {P : ℕ → Prop} (hlen : doms.length = r + 1)
  (htree : Climbs (parentOf doms) r P)
include hlen htree

/-- Climbing from `a` leads to its first ancestor that is not below `b`. -/
theorem climb_ancestor {b : ℕ} (hb : b ≤ r) (fuel : ℕ) :
    ∀ a, P a → r - a < fuel → ∃ c, climb doms b fuel a = some c ∧
      Ancestor (parentOf doms) a c ∧ b ≤ c ∧
      ∀ y, Ancestor (parentOf doms) a y → b ≤ y → Ancestor (parentOf doms) c y := by
  induction fuel with
  | zero => intro a _ h; omega
  | succ fuel ih =>
      intro a ha hfuel
      unfold climb
      split
      · rename_i hlt
        obtain ⟨hmem, hup⟩ := htree.up a ha (by omega)
        have hle := htree.le _ hmem
        obtain ⟨c, hc, hac, hbc, hleast⟩ := ih (parentOf doms a) hmem (by omega)
        rw [getElem?_eq_parentOf (by omega)]
        refine ⟨c, hc, .up hac, hbc, ?_⟩
        intro y hy hby
        rcases ParentTree.ancestor_iff.mp hy with rfl | hy
        · omega
        · exact hleast y hy hby
      · rename_i hge
        exact ⟨a, rfl, .refl a, by omega, fun y hy _ => hy⟩

/-- **`intersect`.**  It finds the nearest common ancestor of two nodes of a tree. -/
theorem intersect_meet (fuel : ℕ) : ∀ a b, P a → P b → (r - a) + (r - b) < fuel →
    ∃ c, intersect doms fuel a b = some c ∧ IsMeet (parentOf doms) a b c := by
  induction fuel with
  | zero => intro a b _ _ h; omega
  | succ fuel ih =>
      intro a b ha hb hfuel
      unfold intersect
      split
      · rename_i hab
        subst hab
        exact ⟨a, rfl, .refl a, .refl a, fun y hy _ => hy⟩
      · rename_i hne
        obtain ⟨a', ha', haa', hba', hleasta⟩ :=
          climb_ancestor hlen htree (htree.le b hb) (fuel + 1) a ha (by omega)
        obtain ⟨hmema, hlea⟩ := htree.ancestor_mem ha haa'
        have hra := htree.le a' hmema
        obtain ⟨b', hb', hbb', hab', hleastb⟩ :=
          climb_ancestor hlen htree hra (fuel + 1) b hb (by omega)
        obtain ⟨hmemb, hleb⟩ := htree.ancestor_mem hb hbb'
        have hrb := htree.le b' hmemb
        obtain ⟨c, hc, hmeet⟩ := ih a' b' hmema hmemb (by omega)
        refine ⟨c, ?_, haa'.trans hmeet.left, hbb'.trans hmeet.right, ?_⟩
        · rw [ha', Option.bind_eq_bind, Option.bind_some, hb', Option.bind_some]
          exact hc
        · -- a common ancestor is above both climbs
          intro y hay hby
          have hay' := hleasta y hay (htree.ancestor_le hb hby)
          exact hmeet.least y hay'
            (hleastb y hby (htree.ancestor_le hmema hay'))

end Climb

section Intersect

variable {doms : List ℕ} {r m : ℕ} (hlen : doms.length = r + 1) (htree : DomTree doms r m)
include hlen htree

/-- Climbing among the nodes from `m` on. -/
theorem climb_spec {b : ℕ} (hb : b ≤ r) (fuel : ℕ) :
    ∀ a, m ≤ a → a ≤ r → r - a < fuel → ∃ c, climb doms b fuel a = some c ∧
      Ancestor (parentOf doms) a c ∧ b ≤ c ∧
      ∀ y, Ancestor (parentOf doms) a y → b ≤ y → Ancestor (parentOf doms) c y :=
  fun a hma har => climb_ancestor hlen htree hb fuel a ⟨hma, har⟩

/-- `intersect` among the nodes from `m` on. -/
theorem intersect_spec (fuel : ℕ) : ∀ a b, m ≤ a → a ≤ r → m ≤ b → b ≤ r →
    (r - a) + (r - b) < fuel →
    ∃ c, intersect doms fuel a b = some c ∧ IsMeet (parentOf doms) a b c :=
  fun a b hma har hmb hbr => intersect_meet hlen htree fuel a b ⟨hma, har⟩ ⟨hmb, hbr⟩

/-- The loop over the predecessors meets those that have a dominator. -/
theorem meetPredecessors_spec (fuel : ℕ) (hr : r < 2 ^ 31) (hfuel : 2 * r < fuel)
    (hunset : ∀ x, x < m → doms[x]? = some sizeMax) (ns : List ℕ) (hns : ∀ p ∈ ns, p ≤ r) :
    ∀ c₀, m ≤ c₀ → c₀ ≤ r → ∃ c, ns.foldlM (meetPredecessor doms fuel) c₀ = some c ∧
      Ancestor (parentOf doms) c₀ c ∧
      (∀ p ∈ ns, m ≤ p → Ancestor (parentOf doms) p c) ∧
      ∀ y, Ancestor (parentOf doms) c₀ y →
        (∀ p ∈ ns, m ≤ p → Ancestor (parentOf doms) p y) → Ancestor (parentOf doms) c y := by
  induction ns with
  | nil =>
      intro c₀ _ _
      exact ⟨c₀, rfl, .refl c₀, fun p hp => by (cases hp), fun y hy _ => hy⟩
  | cons p ns ih =>
      intro c₀ hmc hcr
      have hpr := hns p List.mem_cons_self
      have hns' : ∀ q ∈ ns, q ≤ r := fun q hq => hns q (List.mem_cons_of_mem _ hq)
      rw [List.foldlM_cons]
      rcases Nat.lt_or_ge p m with hpm | hpm
      · have hskip : meetPredecessor doms fuel c₀ p = some c₀ := by
          unfold meetPredecessor
          rw [hunset p hpm]
          rfl
        obtain ⟨c, hc, hanc, hcommon, hnearest⟩ := ih hns' c₀ hmc hcr
        rw [hskip]
        refine ⟨c, hc, hanc, ?_, ?_⟩
        · intro q hq hmq
          rcases List.mem_cons.mp hq with rfl | hq
          · omega
          · exact hcommon q hq hmq
        · exact fun y hy hall => hnearest y hy (fun q hq => hall q (List.mem_cons_of_mem _ hq))
      · obtain ⟨c₁, hc₁, hmeet⟩ :=
          intersect_spec hlen htree fuel p c₀ hpm hpr hmc hcr (by omega)
        have hset : meetPredecessor doms fuel c₀ p = some c₁ := by
          have hval := htree.closed ⟨hpm, hpr⟩
          unfold meetPredecessor
          rw [getElem?_eq_parentOf (by omega), Option.bind_eq_bind, Option.bind_some, if_neg, hc₁]
          unfold sizeMax
          omega
        obtain ⟨hmem₁, -⟩ := htree.ancestor_mem ⟨hmc, hcr⟩ hmeet.right
        obtain ⟨c, hc, hanc, hcommon, hnearest⟩ := ih hns' c₁ hmem₁.1 hmem₁.2
        rw [hset]
        refine ⟨c, hc, hmeet.right.trans hanc, ?_, ?_⟩
        · intro q hq hmq
          rcases List.mem_cons.mp hq with rfl | hq
          · exact hmeet.left.trans hanc
          · exact hcommon q hq hmq
        · intro y hy hall
          exact hnearest y (hmeet.least y (hall p List.mem_cons_self hpm) hy)
            (fun q hq => hall q (List.mem_cons_of_mem _ hq))

end Intersect

/-! ## A round -/

/-- The loop over the predecessors, by their numbers. -/
theorem foldlM_numbers (nodeToNum : ℕ → Option ℤ) (doms : List ℕ) (fuel : ℕ) (bs ns : List ℕ)
    (hnum : bs.map (dominatorsGetNumber nodeToNum) = ns.map some) (c : ℕ) :
    bs.foldlM (fun newDom predBlock => do
      let predBlockNum ← dominatorsGetNumber nodeToNum predBlock
      meetPredecessor doms fuel newDom predBlockNum) c =
      ns.foldlM (meetPredecessor doms fuel) c := by
  induction bs generalizing ns c with
  | nil =>
      obtain rfl := List.map_eq_nil_iff.mp hnum.symm
      rfl
  | cons b bs ih =>
      cases ns with
      | nil => cases hnum
      | cons n ns =>
          obtain ⟨hb, hbs⟩ := List.cons_eq_cons.mp hnum
          rw [List.foldlM_cons, List.foldlM_cons, hb]
          show (meetPredecessor doms fuel c n).bind _ = (meetPredecessor doms fuel c n).bind _
          congr 1
          funext c'
          exact ih ns hbs c'

/-- The new dominator, from the numbers of the predecessors in the use lists of `g`. -/
theorem IsPostorder.newDominator_eq {ir g : Ir} {entry j b : ℕ} {s : VisitState}
    (h : IsPostorder ir entry s) (hfits : s.postorder.length ≤ 2 ^ 31)
    (hj : s.postorder[j]? = some b)
    (hpreds : ∀ a ∈ blockPredecessors g b, Reachable (cfgEdge ir) entry a) (array : List ℕ)
    (fuel : ℕ) :
    newDominator g s.nodeToNum s.postorder array fuel j =
      match (blockPredecessors g b).map (s.postorder.idxOf ·) with
      | [] => array[j]?
      | n :: ns => ns.foldlM (meetPredecessor array fuel) n := by
  have hmap : (blockPredecessors g b).map (dominatorsGetNumber s.nodeToNum) =
      ((blockPredecessors g b).map (s.postorder.idxOf ·)).map some := by
    rw [List.map_map]
    apply List.map_congr_left
    intro a ha
    obtain ⟨k, hk⟩ := h.exists_number (hpreds a ha)
    show _ = some (s.postorder.idxOf a)
    rw [h.getNumber hfits hk, h.idxOf_eq hk]
  unfold newDominator
  rw [hj, Option.bind_eq_bind, Option.bind_some]
  generalize (blockPredecessors g b).map (s.postorder.idxOf ·) = ns at hmap
  generalize blockPredecessors g b = preds at hmap
  cases preds with
  | nil =>
      obtain rfl := List.map_eq_nil_iff.mp hmap.symm
      rfl
  | cons c bs =>
      cases ns with
      | nil => cases hmap
      | cons n ns =>
          obtain ⟨hc, hbs⟩ := List.cons_eq_cons.mp hmap
          show (dominatorsGetNumber s.nodeToNum c).bind _ = _
          rw [hc, Option.bind_some]
          exact foldlM_numbers s.nodeToNum array fuel bs ns hbs n

section Round

variable {ir : Ir} {entry fuel : ℕ} {s : VisitState}

/-- The state of the array in a round: the nodes below `m` are not set, and the others
satisfy the invariant. -/
structure DomsInv (ir : Ir) (s : VisitState) (doms : List ℕ) (m i : ℕ) : Prop where
  length : doms.length = s.postorder.length
  unset : ∀ x, x < m → doms[x]? = some sizeMax
  inv : Inv (numEdge ir s.postorder) (s.postorder.length - 1)
    (oldestPredecessor ir s.postorder) (parentOf doms) m i

variable (h : NumberedCfg ir entry s) {doms : List ℕ} {m i j : ℕ}
include h

/-- The new dominator of a node is its candidate. -/
theorem NumberedCfg.newDominator_spec (hfuel : 2 * s.postorder.length < fuel)
    (hinv : DomsInv ir s doms m (j + 1)) :
    ∃ c, newDominator ir s.nodeToNum s.postorder doms fuel j = some c ∧
      IsCandidate (numEdge ir s.postorder) (parentOf doms) m j c := by
  have hjr : j < s.postorder.length - 1 := hinv.inv.bound.2
  have hmj := hinv.inv.bound.1
  have hfits := h.fits
  have hb : s.postorder[j]? = some s.postorder[j] := List.getElem?_eq_getElem (by omega)
  obtain ⟨p, ns, bs, hbs, hmap, -, hlt, hmem⟩ := h.predecessors hb hjr
  have hnode : ∀ q ∈ p :: ns, q ≤ s.postorder.length - 1 := fun q hq =>
    (h.numbered.le q j ((hmem q).mp hq)).1
  obtain ⟨c, hc, hanc, hcommon, hnearest⟩ := meetPredecessors_spec
    (hinv.length.trans (by omega)) hinv.inv.climbs fuel (by omega) (by omega) hinv.unset ns
    (fun q hq => hnode q (List.mem_cons_of_mem _ hq)) p (by omega)
    (hnode p List.mem_cons_self)
  refine ⟨c, ?_, ?_, ?_⟩
  · unfold newDominator
    rw [hb, Option.bind_eq_bind, Option.bind_some, hbs]
    cases bs with
    | nil => cases hmap
    | cons b bs =>
        obtain ⟨hb', hbs'⟩ := List.cons_eq_cons.mp hmap
        show (dominatorsGetNumber s.nodeToNum b).bind _ = some c
        rw [hb', Option.bind_some]
        exact (foldlM_numbers s.nodeToNum doms fuel bs ns hbs' p).trans hc
  · intro q hq hmq
    rcases List.mem_cons.mp ((hmem q).mpr hq) with rfl | hq
    · exact hanc
    · exact hcommon q hq hmq
  · intro y hy
    exact hnearest y (hy p ((hmem p).mp List.mem_cons_self) (by omega))
      (fun q hq hmq => hy q ((hmem q).mp (List.mem_cons_of_mem _ hq)) hmq)

/-- The loop body for a node other than the entry. -/
theorem NumberedCfg.updateDominator_spec (hfuel : 2 * s.postorder.length < fuel)
    (hinv : DomsInv ir s doms m (j + 1)) (changed : Bool) :
    ∃ c, updateDominator ir s.nodeToNum s.postorder fuel (doms, changed) j =
        some (doms.set j c, changed || doms[j]? ≠ some c) ∧
      IsCandidate (numEdge ir s.postorder) (parentOf doms) m j c ∧
      DomsInv ir s (doms.set j c) (min m j) j := by
  obtain ⟨c, hc, hcand⟩ := h.newDominator_spec hfuel hinv
  have hjr : j < s.postorder.length - 1 := hinv.inv.bound.2
  have hjlen : j < doms.length := by
    rw [hinv.length]
    omega
  refine ⟨c, ?_, hcand, ?_, ?_, ?_⟩
  · unfold updateDominator
    rw [hc, getElem?_eq_parentOf hjlen]
    simp
  · rw [List.length_set]
    exact hinv.length
  · intro x hx
    rw [List.getElem?_set_ne (by omega)]
    exact hinv.unset x (by omega)
  · rw [parentOf_set hjlen]
    exact hinv.inv.step h.numbered hcand

/-- The loop body for the entry changes nothing. -/
theorem NumberedCfg.updateDominator_root (hinv : DomsInv ir s doms m i) (changed : Bool) :
    updateDominator ir s.nodeToNum s.postorder fuel (doms, changed) (s.postorder.length - 1) =
      some (doms, changed) := by
  have hpos := h.postorder.length_pos
  have hlt : s.postorder.length - 1 < doms.length := by
    rw [hinv.length]
    omega
  have hnew : newDominator ir s.nodeToNum s.postorder doms fuel (s.postorder.length - 1) =
      some (parentOf doms (s.postorder.length - 1)) := by
    unfold newDominator
    rw [h.postorder.getElem?_root, Option.bind_eq_bind, Option.bind_some, h.predecessors_root]
    exact getElem?_eq_parentOf hlt
  have hset : doms.set (s.postorder.length - 1) (parentOf doms (s.postorder.length - 1)) = doms := by
    rw [parentOf, List.getD_eq_getElem?_getD, List.getElem?_eq_getElem hlt, Option.getD_some]
    exact List.set_getElem_self hlt
  unfold updateDominator
  rw [hnew, getElem?_eq_parentOf hlt]
  simp [hset]

/-- What a round from `doms` to `doms'` over the nodes below `i` does. -/
structure RoundSpec (ir : Ir) (s : VisitState) (doms doms' : List ℕ) (changed changed' : Bool)
    (m i : ℕ) : Prop where
  inv : DomsInv ir s doms' 0 0
  same : changed' = false → changed = false ∧ doms' = doms
  fix : m = 0 → changed' = false → ∀ j < i,
    IsCandidate (numEdge ir s.postorder) (parentOf doms) 0 j (parentOf doms j)
  le : m = 0 → ∀ x, parentOf doms x ≤ parentOf doms' x
  lt : m = 0 → changed' = true → changed = true ∨
    ∃ x < s.postorder.length - 1, parentOf doms x < parentOf doms' x

/-- **A round** keeps the invariant. -/
theorem NumberedCfg.round_spec (hfuel : 2 * s.postorder.length < fuel) (i : ℕ) :
    ∀ m doms changed, DomsInv ir s doms m i →
      ∃ doms' changed', (List.range i).reverse.foldlM
          (updateDominator ir s.nodeToNum s.postorder fuel) (doms, changed) =
          some (doms', changed') ∧ RoundSpec ir s doms doms' changed changed' m i := by
  induction i with
  | zero =>
      intro m doms changed hinv
      obtain rfl := Nat.le_zero.mp hinv.inv.bound.1
      refine ⟨doms, changed, rfl, hinv, fun hf => ⟨hf, rfl⟩, fun _ _ j hj => ?_, fun _ x => le_rfl,
        fun _ ht => .inl ht⟩
      omega
  | succ j ih =>
      intro m doms changed hinv
      obtain ⟨c, hstep, hcand, hinv'⟩ := h.updateDominator_spec hfuel hinv changed
      obtain ⟨doms', changed', hrest, hspec⟩ := ih _ _ (changed || doms[j]? ≠ some c) hinv'
      have hjlen : j < doms.length := by
        have hjr := hinv.inv.bound.2
        rw [hinv.length]
        omega
      have hupd := parentOf_set hjlen c
      -- the dominator of `j` moves up
      have hup : m = 0 → parentOf doms j ≤ c := by
        rintro rfl
        have hr : j ≤ s.postorder.length - 1 := by
          have hjr := hinv.inv.bound.2
          omega
        have hmem := hinv.inv.climbs.closed ⟨Nat.zero_le j, hr⟩
        exact hinv.inv.climbs.ancestor_le hmem
          (hinv.inv.ancestor_candidate h.numbered hcand (Nat.zero_le j))
      have hle : m = 0 → ∀ x, parentOf doms x ≤ parentOf (doms.set j c) x := by
        intro hm x
        rw [hupd]
        by_cases hx : x = j
        · rw [hx, Function.update_self]
          exact hup hm
        · rw [Function.update_of_ne hx]
      refine ⟨doms', changed', ?_, hspec.inv, ?_, ?_, ?_, ?_⟩
      · rw [List.range_succ, List.reverse_append, List.reverse_singleton, List.singleton_append,
          List.foldlM_cons, hstep]
        exact hrest
      · intro hf
        obtain ⟨hch, hdoms⟩ := hspec.same hf
        obtain ⟨hch', hc⟩ := Bool.or_eq_false_iff.mp hch
        have hc' : doms[j]? = some c := by simpa using hc
        refine ⟨hch', ?_⟩
        rw [hdoms, ← (List.getElem?_eq_some_iff.mp hc').2]
        exact List.set_getElem_self hjlen
      · intro hm hf k hk
        subst hm
        obtain ⟨hch, hdoms⟩ := hspec.same hf
        have hc : doms[j]? = some c := by simpa using (Bool.or_eq_false_iff.mp hch).2
        have hset : doms.set j c = doms := by
          rw [← (List.getElem?_eq_some_iff.mp hc).2]
          exact List.set_getElem_self hjlen
        rw [getElem?_eq_parentOf hjlen] at hc
        rcases Nat.lt_succ_iff_lt_or_eq.mp hk with hk | rfl
        · have hfix := hspec.fix (Nat.zero_min j) hf k hk
          rwa [hset] at hfix
        · rw [Option.some.inj hc]
          exact hcand
      · intro hm x
        exact (hle hm x).trans (hspec.le (by omega) x)
      · intro hm ht
        rcases hspec.lt (by omega) ht with hch | ⟨x, hx, hlt⟩
        · rcases Bool.or_eq_true_iff.mp hch with hch | hne
          · exact .inl hch
          · right
            have hjr := hinv.inv.bound.2
            refine ⟨j, by omega, ?_⟩
            have hne' : parentOf doms j ≠ c := by
              intro heq
              rw [getElem?_eq_parentOf hjlen, heq] at hne
              simp at hne
            have hc : parentOf (doms.set j c) j = c := by rw [hupd, Function.update_self]
            have hle' := hspec.le (by omega) j
            have hup' := hup hm
            omega
        · exact .inr ⟨x, hx, Nat.lt_of_le_of_lt (hle hm x) hlt⟩

/-- The `for` loop. -/
theorem NumberedCfg.dominatorsRound_spec (hfuel : 2 * s.postorder.length < fuel)
    (hinv : DomsInv ir s doms m (s.postorder.length - 1)) :
    ∃ doms' changed, dominatorsRound ir s.nodeToNum s.postorder s.postorder.length fuel doms =
        some (doms', changed) ∧
      RoundSpec ir s doms doms' false changed m (s.postorder.length - 1) := by
  obtain ⟨doms', changed, hround, hspec⟩ := h.round_spec hfuel _ m doms false hinv
  refine ⟨doms', changed, ?_, hspec⟩
  have hpos := h.postorder.length_pos
  rw [dominatorsRound, Loop.reverse_range hpos, List.foldlM_cons, h.updateDominator_root hinv]
  exact hround

end Round

/-! ## The rounds -/

/-- How far the dominators are from the root. -/
def distance (doms : List ℕ) (r : ℕ) : ℕ := ∑ x ∈ Finset.range r, (r - parentOf doms x)

theorem distance_le (doms : List ℕ) (r : ℕ) : distance doms r ≤ r * r := by
  have hle := Finset.sum_le_card_nsmul (Finset.range r) (fun x => r - parentOf doms x) r
    (fun x _ => Nat.sub_le _ _)
  rw [Finset.card_range] at hle
  exact hle

/-- Moving a dominator up brings the dominators closer to the root. -/
theorem RoundSpec.distance_lt_of_lt {ir : Ir} {s : VisitState} {doms doms' : List ℕ}
    {changed changed' : Bool} {i x : ℕ} (hspec : RoundSpec ir s doms doms' changed changed' 0 i)
    (hx : x < s.postorder.length - 1) (hlt : parentOf doms x < parentOf doms' x) :
    distance doms' (s.postorder.length - 1) < distance doms (s.postorder.length - 1) := by
  refine Finset.sum_lt_sum (fun y _ => Nat.sub_le_sub_left (hspec.le rfl y) _)
    ⟨x, Finset.mem_range.mpr hx, ?_⟩
  have hle := (hspec.inv.inv.climbs.closed ⟨Nat.zero_le x, hx.le⟩).2
  omega

/-- A round with a change brings the dominators closer to the root. -/
theorem RoundSpec.distance_lt {ir : Ir} {s : VisitState} {doms doms' : List ℕ} {m i : ℕ}
    (hspec : RoundSpec ir s doms doms' false true m i) (hm : m = 0) :
    distance doms' (s.postorder.length - 1) < distance doms (s.postorder.length - 1) := by
  subst hm
  obtain hno | ⟨x, hx, hlt⟩ := hspec.lt rfl rfl
  · cases hno
  · exact hspec.distance_lt_of_lt hx hlt

section Rounds

variable {ir : Ir} {entry fuel : ℕ} {s : VisitState} (h : NumberedCfg ir entry s)
include h

/-- The result of the loop: a fixpoint. -/
structure DomsFixpoint (ir : Ir) (s : VisitState) (doms : List ℕ) : Prop where
  inv : DomsInv ir s doms 0 0
  fix : ∀ j < s.postorder.length - 1,
    IsCandidate (numEdge ir s.postorder) (parentOf doms) 0 j (parentOf doms j)

/-- The rounds once every node has a dominator. -/
theorem NumberedCfg.dominatorsLoop_of_set (hfuel : 2 * s.postorder.length < fuel) (n : ℕ) :
    ∀ doms rounds, DomsInv ir s doms 0 0 → distance doms (s.postorder.length - 1) ≤ n →
      n < rounds → ∃ doms', dominatorsLoop ir s.nodeToNum s.postorder s.postorder.length fuel
          rounds doms = some doms' ∧ DomsFixpoint ir s doms' := by
  intro doms rounds
  induction rounds generalizing n doms with
  | zero => exact fun _ _ hrounds => absurd hrounds (Nat.not_lt_zero n)
  | succ rounds ih =>
      intro hinv hdist hrounds
      obtain ⟨doms', changed, hround, hspec⟩ :=
        h.dominatorsRound_spec hfuel { hinv with inv := hinv.inv.restart }
      unfold dominatorsLoop
      rw [hround]
      cases changed with
      | false =>
          obtain ⟨-, rfl⟩ := hspec.same rfl
          exact ⟨_, rfl, hspec.inv, hspec.fix rfl rfl⟩
      | true =>
          -- a round that changes something brings the nodes closer to the root
          have hlt := hspec.distance_lt rfl
          exact ih (n - 1) doms' hspec.inv (by omega) (by omega)

/-- The first round sets every node, so it changes nothing only when there is one block. -/
theorem NumberedCfg.root_eq_zero {doms : List ℕ} {changed changed' : Bool} {i : ℕ}
    (hinv : DomsInv ir s doms (s.postorder.length - 1) i)
    (hspec : RoundSpec ir s doms doms changed changed' (s.postorder.length - 1) i) :
    s.postorder.length - 1 = 0 := by
  have hpos := h.postorder.length_pos
  have hfits := h.fits
  by_contra hne
  have hunset := hinv.unset 0 (by omega)
  have hlen : 0 < doms.length := by
    rw [hinv.length]
    exact hpos
  rw [getElem?_eq_parentOf hlen] at hunset
  have hmem := (hspec.inv.inv.climbs.closed ⟨le_rfl, Nat.zero_le _⟩).2
  rw [Option.some.inj hunset] at hmem
  unfold sizeMax at hmem
  omega

/-- **The `while` loop** ends in a fixpoint. -/
theorem NumberedCfg.dominatorsLoop_spec (hfuel : 2 * s.postorder.length < fuel)
    {doms : List ℕ} {rounds : ℕ} (hinv : DomsInv ir s doms (s.postorder.length - 1)
      (s.postorder.length - 1))
    (hrounds : (s.postorder.length - 1) * (s.postorder.length - 1) + 1 < rounds) :
    ∃ doms', dominatorsLoop ir s.nodeToNum s.postorder s.postorder.length fuel rounds doms =
        some doms' ∧ DomsFixpoint ir s doms' := by
  obtain ⟨rounds, rfl⟩ : ∃ k, rounds = k + 1 := ⟨rounds - 1, by omega⟩
  obtain ⟨doms', changed, hround, hspec⟩ := h.dominatorsRound_spec hfuel hinv
  unfold dominatorsLoop
  rw [hround]
  cases changed with
  | false =>
      obtain ⟨-, rfl⟩ := hspec.same rfl
      have hroot := h.root_eq_zero hinv hspec
      exact ⟨_, rfl, hspec.inv, fun j hj => absurd hj (by omega)⟩
  | true =>
      have hdist := distance_le doms' (s.postorder.length - 1)
      exact h.dominatorsLoop_of_set hfuel _ doms' rounds hspec.inv hdist (by omega)

/-- The array before the loop: only the entry has a dominator. -/
theorem NumberedCfg.domsInv_start :
    DomsInv ir s ((List.replicate s.postorder.length sizeMax).set (s.postorder.length - 1)
        (s.postorder.length - 1))
      (s.postorder.length - 1) (s.postorder.length - 1) := by
  have hpos := h.postorder.length_pos
  have hlen : (List.replicate s.postorder.length sizeMax).length = s.postorder.length :=
    List.length_replicate
  refine ⟨?_, ?_, inv_start ?_⟩
  · rw [List.length_set, hlen]
  · intro x hx
    rw [List.getElem?_set_ne (by omega), List.getElem?_replicate, if_pos (by omega)]
  · rw [parentOf_set (by omega), Function.update_self]

end Rounds
