/-
# Dominance frontiers (`dominators.c`)

`domfrontiers_compute` climbs from each predecessor of a block to the immediate dominator of
the block, and puts the block into the list of each block it passes: once for each
predecessor that it climbs from, so that a list can name a block more than once.
`domfrontiersCompute_exact_iff` : with the true immediate dominators it ends, and the lists
are the dominance frontiers; they fit in their buffers if and only if none is entered more
than 250 times.
-/
import MCompiler.DominatorsCorrect

open FlowGraph

/-! ## The code -/

/-- `struct domfrontiers`: the list of each block that has one. -/
structure DomFrontiers where
  dfMap : ℕ → Option (List ℕ)

/-- `_df_getElement`: the list of the block, a new one if there is none. -/
def dfGetElement (df : DomFrontiers) (block : ℕ) : DomFrontiers × List ℕ :=
  match df.dfMap block with
  | some dlist => (df, dlist)
  | none => (⟨Function.update df.dfMap block (some [])⟩, [])

/-- `dbuffer_pushPtr` of `block` to the list of `runner`. -/
def dfPush (df : DomFrontiers) (runner block : ℕ) : DomFrontiers :=
  let (df, dlist) := dfGetElement df runner
  ⟨Function.update df.dfMap runner (some (dlist ++ [block]))⟩

/-- `while (runner != dom)`. -/
def dfRunner (doms : Dominators) (block dom : ℕ) : ℕ → DomFrontiers → ℕ → Option DomFrontiers
  | 0, _, _ => none
  | fuel + 1, df, runner =>
      if runner = dom then some df
      else do
        let next ← dominatorsGetIDom doms runner
        dfRunner doms block dom fuel (dfPush df runner block) next

/-- The loop over the predecessors of a block. -/
def dfBlock (ir : Ir) (doms : Dominators) (fuel : ℕ) (df : DomFrontiers) (block : ℕ) :
    Option DomFrontiers :=
  (blockPredecessors ir block).foldlM (fun df runner => do
    let dom ← dominatorsGetIDom doms block
    dfRunner doms block dom fuel df runner) df

/-- `domfrontiers_compute`. -/
def domfrontiersCompute (ir : Ir) (doms : Dominators) (fuel : ℕ) : Option DomFrontiers :=
  (List.range doms.elementCount).foldlM (fun df i => do
    let block ← doms.postorder[i]?
    dfBlock ir doms fuel df block) ⟨fun _ => none⟩

/-- `domfrontiers_get`. -/
def domfrontiersGet (df : DomFrontiers) (block : ℕ) : List ℕ := (dfGetElement df block).2

/-! ## True immediate dominators -/

/-- `doms` lists the reachable blocks and holds their immediate dominators; the entry is its
own. -/
structure TrueIDoms (ir : Ir) (entry : ℕ) (doms : Dominators) : Prop where
  count : doms.elementCount = doms.postorder.length
  mem : ∀ b, b ∈ doms.postorder ↔ Reachable (cfgEdge ir) entry b
  idom_entry : dominatorsGetIDom doms entry = some entry
  idom : ∀ b, Reachable (cfgEdge ir) entry b → b ≠ entry →
    ∃ d, dominatorsGetIDom doms b = some d ∧ IsIDom (cfgEdge ir) entry d b

/-! ## Lists and buffers -/

/-- The lists are stored inside their buffers. -/
def FrontiersStored (df : DomFrontiers) : Prop :=
  ∀ x dlist, df.dfMap x = some dlist → PointersStored 1000 dlist.length

theorem dfGetElement_eq (df : DomFrontiers) (x : ℕ) :
    dfGetElement df x =
      (⟨Function.update df.dfMap x (some ((df.dfMap x).getD []))⟩, (df.dfMap x).getD []) := by
  show (match df.dfMap x with
    | some dlist => (df, dlist)
    | none => (⟨Function.update df.dfMap x (some [])⟩, [])) = _
  cases hmap : df.dfMap x with
  | none => rfl
  | some dlist =>
      have hsame : Function.update df.dfMap x (some dlist) = df.dfMap := by
        rw [← hmap, Function.update_eq_self]
      show (df, dlist) = (⟨Function.update df.dfMap x (some dlist)⟩, dlist)
      rw [hsame]

/-- The list of a block, which is empty at first. -/
theorem domfrontiersGet_eq (df : DomFrontiers) (x : ℕ) :
    domfrontiersGet df x = (df.dfMap x).getD [] := congrArg Prod.snd (dfGetElement_eq df x)

theorem frontiersStored_iff {df : DomFrontiers} :
    FrontiersStored df ↔ ∀ x, (domfrontiersGet df x).length ≤ 250 := by
  constructor
  · intro h x
    rw [domfrontiersGet_eq]
    cases hmap : df.dfMap x with
    | none => exact Nat.zero_le 250
    | some dlist => exact pointersStored_init_iff.mp (h x dlist hmap)
  · intro h x dlist hmap
    have hle := h x
    rw [domfrontiersGet_eq, hmap] at hle
    exact pointersStored_init_iff.mpr hle

@[simp] theorem domfrontiersGet_push (df : DomFrontiers) (runner block x : ℕ) :
    domfrontiersGet (dfPush df runner block) x =
      domfrontiersGet df x ++ if x = runner then [block] else [] := by
  rw [domfrontiersGet_eq, domfrontiersGet_eq]
  show (Function.update (dfGetElement df runner).1.dfMap runner
    (some ((dfGetElement df runner).2 ++ [block])) x).getD [] = _
  rw [dfGetElement_eq]
  dsimp only
  by_cases hx : x = runner
  · rw [hx, Function.update_self, if_pos rfl, Option.getD_some]
  · rw [Function.update_of_ne hx, Function.update_of_ne hx, if_neg hx, List.append_nil]

/-! ## The loops -/

/-- A loop each round of which appends to the lists. -/
theorem foldlM_collects {ι : Type} {step : DomFrontiers → ι → Option DomFrontiers}
    {new : ι → ℕ → List ℕ} {l : List ι}
    (hstep : ∀ i ∈ l, ∀ df, ∃ df', step df i = some df' ∧ ∀ x,
      domfrontiersGet df' x = domfrontiersGet df x ++ new i x) (df : DomFrontiers) :
    ∃ df', l.foldlM step df = some df' ∧ ∀ x,
      domfrontiersGet df' x = domfrontiersGet df x ++ l.flatMap (new · x) := by
  induction l generalizing df with
  | nil => exact ⟨df, rfl, fun x => (List.append_nil _).symm⟩
  | cons i l ih =>
      obtain ⟨df₁, hrun₁, hget₁⟩ := hstep i List.mem_cons_self df
      obtain ⟨df₂, hrun₂, hget₂⟩ := ih (fun j hj => hstep j (List.mem_cons_of_mem _ hj)) df₁
      refine ⟨df₂, ?_, fun x => ?_⟩
      · rw [List.foldlM_cons, hrun₁]
        exact hrun₂
      · rw [hget₂, hget₁, List.flatMap_cons, List.append_assoc]

open Classical in
/-- How often the climbs from the predecessors of `y` pass `x`: once for each entry of the
list of predecessors that `x` dominates, unless `x` strictly dominates `y`. -/
noncomputable def frontierEntries (ir : Ir) (entry x y : ℕ) : ℕ :=
  (blockPredecessors ir y).countP fun a =>
    Dominates (cfgEdge ir) entry x a ∧ ¬ StrictlyDominates (cfgEdge ir) entry x y

theorem flatMap_ite_eq_replicate {α β : Type*} (p : α → Prop) [DecidablePred p] (l : List α)
    (b : β) : (l.flatMap fun a => if p a then [b] else []) =
      List.replicate (l.countP fun a => p a) b := by
  induction l with
  | nil => rfl
  | cons a l ih =>
      rw [List.flatMap_cons, ih]
      by_cases ha : p a
      · simp [ha, List.replicate_succ]
      · simp [ha]

section Loops

variable {ir : Ir} {entry : ℕ} {doms : Dominators} (hdoms : TrueIDoms ir entry doms)
  {a b d : ℕ}
include hdoms

open Classical in
/-- **The climb** from `a` to its dominator `d` passes the dominators of `a` that do not
dominate `d`. -/
theorem dfRunner_spec (df : DomFrontiers) (block : ℕ) {p : List ℕ}
    (hp : Walk (cfgEdge ir) entry p a) (hda : Dominates (cfgEdge ir) entry d a) {fuel : ℕ}
    (hfuel : p.length < fuel) :
    ∃ df', dfRunner doms block d fuel df a = some df' ∧ ∀ x,
      domfrontiersGet df' x = domfrontiersGet df x ++
        if Dominates (cfgEdge ir) entry x a ∧ ¬ Dominates (cfgEdge ir) entry x d
        then [block] else [] := by
  induction fuel generalizing a p df with
  | zero => exact absurd hfuel (Nat.not_lt_zero _)
  | succ fuel ih =>
      rw [dfRunner]
      by_cases heq : a = d
      · subst heq
        rw [if_pos rfl]
        refine ⟨df, rfl, fun x => ?_⟩
        rw [if_neg (fun h => h.2 h.1), List.append_nil]
      · rw [if_neg heq]
        have hreach : Reachable (cfgEdge ir) entry a := ⟨p, hp⟩
        have hentry : a ≠ entry := by
          rintro rfl
          exact heq ((dominates_root d).antisymm (hda.reachable hreach) hda)
        obtain ⟨e, hget, hidom⟩ := hdoms.idom a hreach hentry
        obtain ⟨q, hq, hlen⟩ := hidom.strict.exists_shorter hp
        have hde : Dominates (cfgEdge ir) entry d e := hidom.least d ⟨Ne.symm heq, hda⟩
        obtain ⟨df', hrun, hlists⟩ := ih (dfPush df a block) hq hde (by omega)
        rw [hget]
        refine ⟨df', hrun, fun x => ?_⟩
        have hnot : ¬ Dominates (cfgEdge ir) entry a d := fun had =>
          heq (Dominates.antisymm hreach hda had).symm
        rw [hlists, domfrontiersGet_push, List.append_assoc, hidom.dominates_iff]
        congr 1
        by_cases hxa : x = a
        · -- the climb passes `a` once: `a` does not dominate `e`
          subst hxa
          have hxe : ¬ Dominates (cfgEdge ir) entry x e := fun hxe =>
            hidom.strict.1 (Dominates.antisymm hreach hidom.strict.2 hxe)
          rw [if_pos rfl, if_neg (fun h => hxe h.1), if_pos ⟨.inl rfl, hnot⟩, List.append_nil]
        · rw [if_neg hxa, List.nil_append]
          simp only [hxa, false_or]

/-- **The predecessors of a block**: the block is appended where it is in the frontier. -/
theorem dfBlock_spec (df : DomFrontiers) (hcfg : UsesAreEdges ir entry)
    (hb : Reachable (cfgEdge ir) entry b) {fuel : ℕ}
    (hfuel : ∀ a, Reachable (cfgEdge ir) entry a →
      ∃ p, Walk (cfgEdge ir) entry p a ∧ p.length < fuel) :
    ∃ df', dfBlock ir doms fuel df b = some df' ∧ ∀ x,
      domfrontiersGet df' x =
        domfrontiersGet df x ++ List.replicate (frontierEntries ir entry x b) b := by
  classical
  by_cases hentry : b = entry
  · subst hentry
    unfold dfBlock frontierEntries
    rw [hcfg.root]
    exact ⟨df, rfl, fun x => (List.append_nil _).symm⟩
  · obtain ⟨d, hget, hidom⟩ := hdoms.idom b hb hentry
    have hstep : ∀ a ∈ blockPredecessors ir b, ∀ df, ∃ df',
        (do let dom ← dominatorsGetIDom doms b
            dfRunner doms b dom fuel df a) = some df' ∧ ∀ x,
        domfrontiersGet df' x = domfrontiersGet df x ++
          if Dominates (cfgEdge ir) entry x a ∧ ¬ Dominates (cfgEdge ir) entry x d
          then [b] else [] := by
      intro a ha df
      obtain ⟨hreach, hE⟩ := (hcfg.mem_blockPredecessors hb).mp ha
      obtain ⟨p, hp, hlen⟩ := hfuel a hreach
      rw [hget]
      exact dfRunner_spec hdoms df b hp (hidom.strict.of_edge hE) hlen
    obtain ⟨df', hrun, hlists⟩ := foldlM_collects hstep df
    refine ⟨df', hrun, fun x => ?_⟩
    rw [hlists, flatMap_ite_eq_replicate]
    unfold frontierEntries
    simp only [hidom.strictlyDominates_iff hb]

end Loops

/-- The block is in the frontier exactly if some climb enters it. -/
theorem frontierEntries_ne_zero {ir : Ir} {entry x y : ℕ} (hcfg : UsesAreEdges ir entry)
    (hy : Reachable (cfgEdge ir) entry y) :
    frontierEntries ir entry x y ≠ 0 ↔ Frontier (cfgEdge ir) entry x y := by
  unfold frontierEntries Frontier
  rw [← Nat.pos_iff_ne_zero, List.countP_pos_iff]
  simp only [decide_eq_true_eq]
  constructor
  · rintro ⟨a, ha, hx⟩
    obtain ⟨hreach, hE⟩ := (hcfg.mem_blockPredecessors hy).mp ha
    exact ⟨a, hE, hreach, hx⟩
  · rintro ⟨a, hE, hreach, hx⟩
    exact ⟨a, (hcfg.mem_blockPredecessors hy).mpr ⟨hreach, hE⟩, hx⟩

/-- A block is reached within as many steps as there are blocks. -/
theorem TrueIDoms.exists_walk {ir : Ir} {entry : ℕ} {doms : Dominators}
    (h : TrueIDoms ir entry doms) {fuel : ℕ} (hfuel : doms.postorder.length < fuel) {a : ℕ}
    (ha : Reachable (cfgEdge ir) entry a) :
    ∃ p, Walk (cfgEdge ir) entry p a ∧ p.length < fuel := by
  obtain ⟨p, hp, hnodup⟩ := ha.exists_nodup
  refine ⟨p, hp, Nat.lt_of_le_of_lt ?_ hfuel⟩
  have hsub : p ⊆ doms.postorder := by
    intro x hx
    obtain ⟨q, hq, -⟩ := hp.prefix_of_mem hx
    exact (h.mem x).mpr ⟨q, hq⟩
  exact (hnodup.subperm hsub).length_le

/-- A loop over the numbers of a list is one over its elements. -/
theorem foldlM_range_getElem? {σ α : Type} (step : σ → α → Option σ) (l : List α) (s : σ) :
    (List.range l.length).foldlM (fun s i => do let a ← l[i]?; step s a) s = l.foldlM step s := by
  induction l using List.reverseRecOn generalizing s with
  | nil => rfl
  | append_singleton l a ih =>
      have hcongr : ∀ (is : List ℕ) s, (∀ i ∈ is, i < l.length) →
          is.foldlM (fun s i => do let a ← (l ++ [a])[i]?; step s a) s =
            is.foldlM (fun s i => do let a ← l[i]?; step s a) s := by
        intro is
        induction is with
        | nil => exact fun s _ => rfl
        | cons i is ihis =>
            intro s his
            rw [List.foldlM_cons, List.foldlM_cons,
              List.getElem?_append_left (his i List.mem_cons_self)]
            congr 1
            funext s'
            exact ihis s' fun i hi => his i (List.mem_cons_of_mem _ hi)
      rw [List.length_append, List.length_singleton, List.range_succ, List.foldlM_append,
        List.foldlM_append, hcongr _ s fun i hi => List.mem_range.mp hi, ih]
      congr 1
      funext s'
      simp only [List.foldlM_cons, List.foldlM_nil, List.getElem?_concat_length]
      rfl

section Compute

variable {ir : Ir} {entry : ℕ} {doms : Dominators} (hcfg : UsesAreEdges ir entry)
  (hdoms : TrueIDoms ir entry doms)
include hcfg hdoms

/-- **The lists**: with enough steps the computation ends, and each list holds the blocks of
the postorder, each as often as the climbs enter it. -/
theorem domfrontiersCompute_lists {fuel : ℕ} (hfuel : doms.postorder.length < fuel) :
    ∃ df, domfrontiersCompute ir doms fuel = some df ∧ ∀ x, domfrontiersGet df x =
      doms.postorder.flatMap fun y => List.replicate (frontierEntries ir entry x y) y := by
  have hstep : ∀ y ∈ doms.postorder, ∀ df, ∃ df', dfBlock ir doms fuel df y = some df' ∧ ∀ x,
      domfrontiersGet df' x =
        domfrontiersGet df x ++ List.replicate (frontierEntries ir entry x y) y :=
    fun y hy df => dfBlock_spec hdoms df hcfg ((hdoms.mem y).mp hy)
      fun _ ha => hdoms.exists_walk hfuel ha
  obtain ⟨df, hrun, hlists⟩ := foldlM_collects hstep ⟨fun _ => none⟩
  refine ⟨df, ?_, fun x => (hlists x).trans (List.nil_append _)⟩
  rw [← hrun, ← foldlM_range_getElem?, ← hdoms.count]
  rfl

omit hcfg hdoms in
theorem length_frontierList (ir : Ir) (entry x : ℕ) (l : List ℕ) :
    (l.flatMap fun y => List.replicate (frontierEntries ir entry x y) y).length =
      (l.map (frontierEntries ir entry x)).sum := by
  rw [List.length_flatMap]
  simp only [List.length_replicate]

/-- The lists are the dominance frontiers. -/
theorem domfrontiersCompute_frontier {df : DomFrontiers} {x y : ℕ}
    (hlist : domfrontiersGet df x =
      doms.postorder.flatMap fun y => List.replicate (frontierEntries ir entry x y) y) :
    y ∈ domfrontiersGet df x ↔ Frontier (cfgEdge ir) entry x y := by
  rw [hlist, List.mem_flatMap]
  constructor
  · rintro ⟨z, hz, hy⟩
    obtain ⟨hne, rfl⟩ := List.mem_replicate.mp hy
    exact (frontierEntries_ne_zero hcfg ((hdoms.mem y).mp hz)).mp hne
  · intro hy
    have hreach : Reachable (cfgEdge ir) entry y := by
      obtain ⟨a, hE, ha, -⟩ := hy
      exact ha.step hE
    exact ⟨y, (hdoms.mem y).mpr hreach,
      List.mem_replicate.mpr ⟨(frontierEntries_ne_zero hcfg hreach).mpr hy, rfl⟩⟩

/-- The list of a block that cannot be reached stays empty. -/
theorem sum_frontierEntries_of_not_reachable {x : ℕ} (hx : ¬ Reachable (cfgEdge ir) entry x) :
    (doms.postorder.map (frontierEntries ir entry x)).sum = 0 := by
  refine List.sum_eq_zero fun n hn => ?_
  obtain ⟨y, hy, rfl⟩ := List.mem_map.mp hn
  by_contra hne
  obtain ⟨a, -, ha, hxa, -⟩ := (frontierEntries_ne_zero hcfg ((hdoms.mem y).mp hy)).mp hne
  exact hx (hxa.reachable ha)

end Compute

/-- `domfrontiers_compute` ends, its lists are stored inside their buffers, and the list of a
reachable block is its dominance frontier. -/
def ComputesFrontiers (ir : Ir) (entry : ℕ) (doms : Dominators) : Prop :=
  ∃ bound, ∀ fuel, bound ≤ fuel → ∃ df, domfrontiersCompute ir doms fuel = some df ∧
    FrontiersStored df ∧ ∀ x, Reachable (cfgEdge ir) entry x →
      ∀ y, y ∈ domfrontiersGet df x ↔ Frontier (cfgEdge ir) entry x y

/-- **Dominance frontiers are exact if and only if their lists fit**: for each block `x`, at
most 250 entries of the lists of predecessors are dominated by `x` while `x` does not strictly
dominate the block they lead to. -/
theorem domfrontiersCompute_exact_iff (ir : Ir) (entry : ℕ) (doms : Dominators)
    (hcfg : UsesAreEdges ir entry) (hdoms : TrueIDoms ir entry doms) :
    ComputesFrontiers ir entry doms ↔ ∀ x, Reachable (cfgEdge ir) entry x →
      (doms.postorder.map (frontierEntries ir entry x)).sum ≤ 250 := by
  constructor
  · rintro ⟨bound, hall⟩ x -
    obtain ⟨df, hrun, hstored, -⟩ := hall (max bound (doms.postorder.length + 1))
      (Nat.le_max_left ..)
    obtain ⟨df', hrun', hlists⟩ := domfrontiersCompute_lists hcfg hdoms
      (show doms.postorder.length < max bound (doms.postorder.length + 1) by omega)
    obtain rfl := Option.some.inj (hrun.symm.trans hrun')
    rw [← length_frontierList, ← hlists]
    exact frontiersStored_iff.mp hstored x
  · intro hfits
    refine ⟨doms.postorder.length + 1, fun fuel hfuel => ?_⟩
    obtain ⟨df, hrun, hlists⟩ := domfrontiersCompute_lists hcfg hdoms hfuel
    refine ⟨df, hrun, frontiersStored_iff.mpr fun x => ?_,
      fun x _ y => domfrontiersCompute_frontier hcfg hdoms (hlists x)⟩
    rw [hlists, length_frontierList]
    by_cases hx : Reachable (cfgEdge ir) entry x
    · exact hfits x hx
    · rw [sum_frontierEntries_of_not_reachable hcfg hdoms hx]
      exact Nat.zero_le 250

/-! ## The computed dominators -/

/-- `dominators_compute` gives true immediate dominators. -/
theorem ComputedDominators.trueIDoms {ir : Ir} {entry : ℕ} {doms : Dominators}
    (h : ComputedDominators ir entry doms) : TrueIDoms ir entry doms where
  count := h.count
  mem := h.numbered.postorder.mem
  idom_entry := h.getIDom_entry
  idom b hb hne := by
    obtain ⟨x, hx⟩ := h.numbered.postorder.exists_number hb
    obtain ⟨d, hd, hidom⟩ := h.isIDom hx hne
    exact ⟨d, (h.getIDom_eq hx).trans hd, hidom⟩

/-! ## Many jumps back to one block -/

/-- The blocks `0, …, n`: the entry jumps to the block `1`, and each other block jumps back to
it or on to the next one. -/
def latchIr (n : ℕ) : Ir where
  insts := fun i =>
    if 0 < i ∧ i < n then
      ⟨.jumpCond, .void, [some (.block 1), some (.block (i + 1)), some (.const 0)], i⟩
    else ⟨.jump, .void, [some (.block 1)], i⟩
  blocks := fun b => [b]
  consts := fun _ => 1
  uses := fun v =>
    match v with
    | .block 1 => (List.range (n + 1)).map fun i => ⟨i, 0⟩
    | .block (b + 2) => if b + 2 ≤ n then [⟨b + 1, 1⟩] else []
    | .const 0 => ((List.range n).drop 1).map fun i => ⟨i, 2⟩
    | _ => []
  instCount := n + 1
  blockCount := n + 1
  constCount := 1

/-- Its dominators: each block is the immediate dominator of the next one. -/
def latchDoms (n : ℕ) : Dominators where
  domNodes := (List.range (n + 1)).map fun i => ⟨i, if i = 0 then [] else [i - 1]⟩
  doms := (List.range (n + 1)).map fun i => min (i + 1) n
  nodeToNum := fun b => if b ≤ n then some (toInt (n - b : ℕ)) else none
  postorder := (List.range (n + 1)).reverse
  elementCount := n + 1

section Latch

variable {n : ℕ}

theorem operand_latch {u : Use} {b : ℕ} : (latchIr n).operand u = some (.block b) ↔
    (u.slot = 0 ∧ b = 1) ∨ (u.slot = 1 ∧ b = u.inst + 1 ∧ 0 < u.inst ∧ u.inst < n) := by
  have hinst : (latchIr n).insts u.inst = if 0 < u.inst ∧ u.inst < n then
      ⟨.jumpCond, .void, [some (.block 1), some (.block (u.inst + 1)), some (.const 0)], u.inst⟩
      else ⟨.jump, .void, [some (.block 1)], u.inst⟩ := rfl
  unfold Ir.operand
  rw [hinst]
  split
  · match u.slot with
    | 0 => simp [eq_comm]
    | 1 => simp_all [eq_comm]
    | 2 => simp
    | k + 3 => simp
  · match u.slot with
    | 0 => simp [eq_comm]
    | 1 => simp_all
    | k + 2 => simp

theorem type_latch (i : ℕ) : ((latchIr n).insts i).type ≠ .phi := by
  have hinst : (latchIr n).insts i = if 0 < i ∧ i < n then
      ⟨.jumpCond, .void, [some (.block 1), some (.block (i + 1)), some (.const 0)], i⟩
      else ⟨.jump, .void, [some (.block 1)], i⟩ := rfl
  rw [hinst]
  split <;> exact fun h => by cases h

theorem parent_latch (i : ℕ) : ((latchIr n).insts i).parent = i := by
  have hinst : (latchIr n).insts i = if 0 < i ∧ i < n then
      ⟨.jumpCond, .void, [some (.block 1), some (.block (i + 1)), some (.const 0)], i⟩
      else ⟨.jump, .void, [some (.block 1)], i⟩ := rfl
  rw [hinst]
  split <;> rfl

theorem cfgEdge_latch {a b : ℕ} :
    cfgEdge (latchIr n) a b ↔ b = 1 ∨ (b = a + 1 ∧ 0 < a ∧ a < n) := by
  unfold cfgEdge
  rw [mem_blockSuccessors]
  constructor
  · rintro ⟨u, hlast, -, hop⟩
    obtain rfl := Option.some.inj (show some a = some u.inst from hlast)
    rcases operand_latch.mp hop with ⟨-, hb⟩ | ⟨-, hb⟩
    · exact .inl hb
    · exact .inr hb
  · rintro (hb | hb)
    · exact ⟨⟨a, 0⟩, rfl, type_latch a, operand_latch.mpr (.inl ⟨rfl, hb⟩)⟩
    · exact ⟨⟨a, 1⟩, rfl, type_latch a, operand_latch.mpr (.inr ⟨rfl, hb⟩)⟩

theorem reachable_latch (hn : 0 < n) {b : ℕ} :
    Reachable (cfgEdge (latchIr n)) 0 b ↔ b ≤ n := by
  constructor
  · rintro ⟨p, hp⟩
    cases hp with
    | root => exact Nat.zero_le n
    | step _ hE =>
        rcases cfgEdge_latch.mp hE with rfl | ⟨rfl, -, ha⟩
        · exact hn
        · exact ha
  · intro hb
    induction b with
    | zero => exact .root
    | succ b ih =>
        refine (ih (by omega)).step (cfgEdge_latch.mpr ?_)
        rcases Nat.eq_zero_or_pos b with rfl | hpos
        · exact .inl rfl
        · exact .inr ⟨rfl, hpos, by omega⟩

theorem latchIr_usesAreEdges (hn : 0 < n) : UsesAreEdges (latchIr n) 0 where
  parent := by
    intro a i _ hlast
    obtain rfl := Option.some.inj (show some a = some i from hlast)
    exact parent_latch a
  root := rfl
  uses := by
    rintro b hb ⟨i, k⟩
    have hedge : IsEdgeUse (latchIr n) 0 ⟨i, k⟩ b ↔ i ≤ n ∧
        ((k = 0 ∧ b = 1) ∨ (k = 1 ∧ b = i + 1 ∧ 0 < i ∧ i < n)) := by
      constructor
      · rintro ⟨a, ha, hlast, -, hop⟩
        obtain rfl := Option.some.inj (show some a = some i from hlast)
        exact ⟨(reachable_latch hn).mp ha, operand_latch.mp hop⟩
      · rintro ⟨hi, hop⟩
        exact ⟨i, (reachable_latch hn).mpr hi, rfl, type_latch i, operand_latch.mpr hop⟩
    rw [reachable_latch hn] at hb
    rw [hedge]
    match b with
    | 0 =>
        have huses : (latchIr n).uses (.block 0) = [] := rfl
        rw [huses]
        simp
    | 1 =>
        have huses : (latchIr n).uses (.block 1) = (List.range (n + 1)).map fun i => ⟨i, 0⟩ := rfl
        rw [huses]
        simp only [List.mem_map, List.mem_range, Use.mk.injEq]
        constructor
        · rintro ⟨j, hj, rfl, rfl⟩
          exact ⟨by omega, .inl ⟨rfl, trivial⟩⟩
        · rintro ⟨hi, ⟨rfl, -⟩ | ⟨-, h1, hpos, -⟩⟩
          · exact ⟨i, by omega, rfl, rfl⟩
          · omega
    | c + 2 =>
        have huses : (latchIr n).uses (.block (c + 2)) = [⟨c + 1, 1⟩] := if_pos hb
        rw [huses]
        simp only [List.mem_singleton, Use.mk.injEq]
        omega

theorem dominatorsGetIDom_latch (hn : n < 2 ^ 31) {b : ℕ} (hb : b ≤ n) :
    dominatorsGetIDom (latchDoms n) b = some (b - 1) := by
  have hnum : dominatorsGetNumber (latchDoms n).nodeToNum b = some (n - b) := by
    unfold dominatorsGetNumber
    rw [show (latchDoms n).nodeToNum b = some (toInt (n - b : ℕ)) from if_pos hb, Option.map_some,
      sizeOfInt_toInt (by omega)]
  have hdom : (latchDoms n).doms[n - b]? = some (n - (b - 1)) := by
    show ((List.range (n + 1)).map fun i => min (i + 1) n)[n - b]? = _
    rw [List.getElem?_map, List.getElem?_range (by omega), Option.map_some]
    exact congrArg some (by omega)
  have hpost : (latchDoms n).postorder[n - (b - 1)]? = some (b - 1) := by
    show (List.range (n + 1)).reverse[n - (b - 1)]? = _
    rw [List.getElem?_reverse (by rw [List.length_range]; omega), List.length_range,
      List.getElem?_range (by omega)]
    exact congrArg some (by omega)
  unfold dominatorsGetIDom
  rw [hnum, Option.bind_eq_bind, Option.bind_some, hdom]
  exact hpost

theorem latchDoms_trueIDoms (hpos : 0 < n) (hn : n < 2 ^ 31) :
    TrueIDoms (latchIr n) 0 (latchDoms n) where
  count := by
    show n + 1 = (List.range (n + 1)).reverse.length
    rw [List.length_reverse, List.length_range]
  mem b := by
    show b ∈ (List.range (n + 1)).reverse ↔ _
    rw [reachable_latch hpos, List.mem_reverse, List.mem_range, Nat.lt_succ_iff]
  idom_entry := dominatorsGetIDom_latch hn (Nat.zero_le n)
  idom b hb hne := by
    rw [reachable_latch hpos] at hb
    refine ⟨b - 1, dominatorsGetIDom_latch hn hb, IsIDom.of_edge hne ?_ (by omega) ?_⟩
    · rw [cfgEdge_latch]
      omega
    · intro a _ hE
      rcases cfgEdge_latch.mp hE with rfl | ⟨rfl, -, -⟩
      · exact dominates_root a
      · exact .refl a

/-- Each block but the entry jumps back to the block `1`, which dominates it. -/
theorem le_frontierEntries_latch : n ≤ frontierEntries (latchIr n) 0 1 1 := by
  have hpreds : blockPredecessors (latchIr n) 1 = List.range (n + 1) := by
    show ((List.range (n + 1)).map fun i => (⟨i, 0⟩ : Use)).map _ = _
    rw [List.map_map]
    exact (List.map_congr_left fun i _ => parent_latch i).trans (List.map_id _)
  have hdom : ∀ a, Dominates (cfgEdge (latchIr n)) 0 1 (a + 1) := by
    intro a
    rcases Nat.eq_zero_or_pos a with rfl | hpos
    · exact .refl 1
    · -- the blocks from `2` on are entered from the block `1`
      refine dominates_of_region (R := fun b => 2 ≤ b) (by decide) ?_ (by omega)
      intro a b hE hb
      rcases cfgEdge_latch.mp hE with rfl | ⟨rfl, hpos, -⟩
      · omega
      · omega
  unfold frontierEntries
  rw [hpreds, List.range_succ_eq_map]
  refine le_trans (le_of_eq ?_) (List.Sublist.countP_le (List.sublist_cons_self 0 _))
  rw [List.countP_map, List.countP_eq_length.mpr, List.length_range]
  intro a _
  simp only [Function.comp_apply, decide_eq_true_eq]
  exact ⟨hdom a, fun h => h.1 rfl⟩

end Latch

/-- Two jumps back to one block. -/
theorem domfrontiersCompute_exact_iff_latch : ComputesFrontiers (latchIr 2) 0 (latchDoms 2) ↔
    ∀ x, Reachable (cfgEdge (latchIr 2)) 0 x →
      ((latchDoms 2).postorder.map (frontierEntries (latchIr 2) 0 x)).sum ≤ 250 :=
  domfrontiersCompute_exact_iff _ _ _ (latchIr_usesAreEdges (by decide))
    (latchDoms_trueIDoms (by decide) (by decide))

/-- **The list of a loop head does not fit.**  The entry of the 251st jump back to the block
is stored past the end of the buffer. -/
theorem domfrontiersCompute_not_exact : ¬ ∀ ir entry doms, UsesAreEdges ir entry →
    TrueIDoms ir entry doms → ComputesFrontiers ir entry doms := by
  intro hclaim
  have hcfg := latchIr_usesAreEdges (n := 251) (by decide)
  have hdoms := latchDoms_trueIDoms (n := 251) (by decide) (by decide)
  obtain ⟨bound, hall⟩ := hclaim _ _ _ hcfg hdoms
  obtain ⟨df, hrun, hstored, -⟩ := hall (max bound 253) (Nat.le_max_left ..)
  have hfuel : (latchDoms 251).postorder.length < max bound 253 := by
    rw [← hdoms.count]
    exact Nat.lt_of_lt_of_le (by decide) (Nat.le_max_right bound 253)
  obtain ⟨df', hrun', hlists⟩ := domfrontiersCompute_lists hcfg hdoms hfuel
  obtain rfl := Option.some.inj (hrun.symm.trans hrun')
  have hle := frontiersStored_iff.mp hstored 1
  rw [hlists, length_frontierList] at hle
  have hmem : frontierEntries (latchIr 251) 0 1 1 ∈
      (latchDoms 251).postorder.map (frontierEntries (latchIr 251) 0 1) :=
    List.mem_map_of_mem ((hdoms.mem 1).mpr ((reachable_latch (by decide)).mpr (by decide)))
  have hentries := le_frontierEntries_latch (n := 251)
  have hsum := List.single_le_sum (fun _ _ => Nat.zero_le _) _ hmem
  omega
