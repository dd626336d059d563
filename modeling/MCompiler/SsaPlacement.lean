/-
# Placing phis

Step 2 of `ssa_convert` processes one variable after the other.  `Placing` is the invariant
of the worklist of a variable: the blocks on it or taken from it are stamped with the
number of the variable, and the phis are in the frontiers of those taken.
`placeLoop_spec` : the loop ends, with phis on all frontiers found (`PlacedAt`), when it has
taken each block of the worklist once.  `placePhis_queues` : step 2 ends in any number of steps
that is greater than the number of blocks on the worklist of each variable (`OnWorklist`).
-/
import MCompiler.SsaFilling

open FlowGraph

/-! ## The blocks that get a phi -/

/-- The block `b` has a phi for the register `a`. -/
def HasPhi (phis : ℕ → List PhiInfo) (b a : ℕ) : Prop := ∃ p ∈ phis b, p.rId = a

/-- The blocks that get a phi for a variable which the blocks `S` assign; `grow` : blocks
with a new phi are put on the worklist. -/
inductive PlacedAt (df : DomFrontiers) (grow : Prop) (S : ℕ → Prop) : ℕ → Prop
  | start {x y : ℕ} : S x → y ∈ domfrontiersGet df x → PlacedAt df grow S y
  | step {x y : ℕ} : grow → PlacedAt df grow S x → y ∈ domfrontiersGet df x →
      PlacedAt df grow S y

/-- The blocks that are put on the worklist of the variable. -/
def OnWorklist (df : DomFrontiers) (grow : Prop) (S : ℕ → Prop) (b : ℕ) : Prop :=
  S b ∨ (grow ∧ PlacedAt df grow S b)

theorem PlacedAt.congr {df : DomFrontiers} {grow : Prop} {S S' : ℕ → Prop}
    (h : ∀ x, S x ↔ S' x) {b : ℕ} : PlacedAt df grow S b ↔ PlacedAt df grow S' b := by
  rw [funext fun x => propext (h x)]

theorem PlacedAt.exists_start {df : DomFrontiers} {grow : Prop} {S : ℕ → Prop} {b : ℕ}
    (h : PlacedAt df grow S b) : ∃ x, S x := by
  induction h with
  | start hx _ => exact ⟨_, hx⟩
  | step _ _ _ ih => exact ih

theorem PlacedAt.reachable {df : DomFrontiers} {grow : Prop} {S P : ℕ → Prop} {b : ℕ}
    (h : PlacedAt df grow S b) (hdf : ∀ x, P x → ∀ y ∈ domfrontiersGet df x, P y)
    (hS : ∀ x, S x → P x) : P b := by
  induction h with
  | start hx hy => exact hdf _ (hS _ hx) _ hy
  | step _ _ hy ih => exact hdf _ ih _ hy

/-- The phis of the blocks that there are so far. -/
structure PlaceOk (ir : Ir) (entry : ℕ) (doms : Dominators) (blockInfo : ℕ → BlockInfo)
    (phis : ℕ → List PhiInfo) (s : PlaceState) : Prop where
  filled : Filled ir phis s.ir
  info : ∀ n b : ℕ, doms.postorder[n]? = some b →
    s.blockInfo n = { blockInfo n with phiList := phis b }
  distinct : ∀ b, (phis b).Pairwise fun p q => toInt p.rId ≠ toInt q.rId
  inside : ∀ b, ∀ p ∈ phis b, Reachable (cfgEdge ir) entry b

/-- The blocks that are on the worklist or have been taken from it. -/
def queued (processed : List ℕ) (s : PlaceState) : List ℕ := processed ++ s.worklist.map Prod.snd

/-- The variable `k`, with the register `a`, is being processed: the blocks `starts` assign
it, and the blocks `found` have a phi so far. -/
structure Placing (ir : Ir) (entry : ℕ) (doms : Dominators) (df : DomFrontiers)
    (blockInfo : ℕ → BlockInfo) (old : ℕ → List PhiInfo) (k a : ℕ)
    (starts processed : List ℕ) (found : ℕ → Prop) (phis : ℕ → List PhiInfo) (s : PlaceState) : Prop
    extends PlaceOk ir entry doms blockInfo phis s where
  cases : ∀ b, ∀ p ∈ phis b, p.rId = a ∨ p ∈ old b
  frame : ∀ b, ∀ p ∈ old b, p ∈ phis b
  hasPhi : ∀ b, HasPhi phis b a ↔ found b
  stamp_le : ∀ n, s.lastIteration n ≤ k
  stamp : k ≠ 0 → ∀ n b : ℕ, doms.postorder[n]? = some b →
    (s.lastIteration n = k ↔ b ∈ queued processed s)
  reach : ∀ b ∈ queued processed s, Reachable (cfgEdge ir) entry b
  started : starts ⊆ queued processed s
  sound : ∀ b, found b → PlacedAt df (k ≠ 0) (· ∈ starts) b
  source : ∀ b ∈ queued processed s, b ∈ starts ∨ (k ≠ 0 ∧ PlacedAt df (k ≠ 0) (· ∈ starts) b)
  grown : k ≠ 0 → ∀ b, found b → b ∈ queued processed s
  nodup : (queued processed s).Nodup

/-- A bound on the number of blocks that are still to be taken from the worklist. -/
def pending (doms : Dominators) (processed : List ℕ) (s : PlaceState) : ℕ :=
  (doms.postorder.filter (· ∉ queued processed s)).length + s.worklist.length

/-- One more element that counts no longer. -/
theorem length_filter_notMem_concat {l q : List ℕ} {b : ℕ} (hb : b ∈ l) (hq : b ∉ q) :
    (l.filter (· ∉ q ++ [b])).length < (l.filter (· ∉ q)).length := by
  have hfilter : l.filter (· ∉ q ++ [b]) = (l.filter (· ∉ q)).filter (· ≠ b) := by
    rw [List.filter_filter]
    apply List.filter_congr
    intro x _
    simp [not_or, and_comm]
  rw [hfilter]
  apply List.length_filter_lt_length_iff_exists.mpr
  exact ⟨b, List.mem_filter.mpr ⟨hb, by simpa using hq⟩, by simp⟩

/-- Stamps are at most the number of the variable. -/
theorem stamp_le_update {stamps : ℕ → ℕ} {k : ℕ} (h : ∀ m, stamps m ≤ k) (n m : ℕ) :
    Function.update stamps n k m ≤ k := by
  by_cases hmn : m = n
  · rw [hmn, Function.update_self]
  · rw [Function.update_of_ne hmn]
    exact h m

/-- The stamp of the block that is put at the end of the worklist. -/
theorem stamp_update {postorder q : List ℕ} (hnodup : postorder.Nodup) {stamps : ℕ → ℕ}
    {k n b : ℕ} (hn : postorder[n]? = some b)
    (h : ∀ m c : ℕ, postorder[m]? = some c → (stamps m = k ↔ c ∈ q)) (m c : ℕ)
    (hm : postorder[m]? = some c) : Function.update stamps n k m = k ↔ c ∈ q ++ [b] := by
  rw [List.mem_append, List.mem_singleton]
  by_cases hmn : m = n
  · subst hmn
    obtain rfl : b = c := Option.some.inj (hn.symm.trans hm)
    rw [Function.update_self]
    exact iff_of_true rfl (.inr rfl)
  · have hcb : c ≠ b := ne_of_positions hnodup hm hn hmn
    rw [Function.update_of_ne hmn, h m c hm]
    simp [hcb]

section Placing

variable {ir : Ir} {entry : ℕ} {doms : Dominators} {df : DomFrontiers} {blockInfo : ℕ → BlockInfo}
  {old phis : ℕ → List PhiInfo} {k a : ℕ} {starts processed : List ℕ} {found : ℕ → Prop}
  {s : PlaceState} {b : ℕ}
  (hheap : HeapOk ir) (hdoms : CorrectDoms ir entry doms)
  (hold : ∀ b, ∀ p ∈ old b, toInt p.rId ≠ toInt a)
include hheap hdoms hold

/-- The phi of a block of a frontier. -/
theorem Placing.getOrCreate (type : DataType)
    (h : Placing ir entry doms df blockInfo old k a starts processed found phis s)
    (hb : Reachable (cfgEdge ir) entry b) {n : ℕ} (hn : doms.postorder[n]? = some b) :
    ∃ ir' bInfo phi phis', blockInfoGetOrCreatePhi s.ir (s.blockInfo n) b a type =
        (ir', bInfo, phi) ∧
      PlaceOk ir entry doms blockInfo phis'
        { s with ir := ir', blockInfo := Function.update s.blockInfo n bInfo } ∧
      (∀ x, ∀ p ∈ phis' x, p.rId = a ∨ p ∈ old x) ∧ (∀ x, ∀ p ∈ old x, p ∈ phis' x) ∧
      ∀ x, HasPhi phis' x a ↔ found x ∨ x = b := by
  have hinfo := h.info n b hn
  have hlist : (s.blockInfo n).phiList = phis b := by rw [hinfo]
  obtain ⟨ir', new, phi, hrun, hfilled, hphi, hkey, hnew⟩ :=
    blockInfoGetOrCreatePhi_spec a type h.filled hheap hlist
  rw [hlist] at hrun hfilled hphi
  have hrId : phi.rId = a := by
    rcases hnew with ⟨-, hmem⟩ | ⟨-, heq, -⟩
    · exact (h.cases b phi hmem).resolve_right fun hmem => hold b phi hmem hkey
    · exact heq
  have hnewa : ∀ p ∈ new, p = phi := by
    intro p hp
    rcases hnew with ⟨rfl, -⟩ | ⟨rfl, -, -⟩
    · cases hp
    · exact List.mem_singleton.mp hp
  have hmem : ∀ x p, p ∈ Function.update phis b (phis b ++ new) x ↔
      p ∈ phis x ∨ (x = b ∧ p ∈ new) := by
    intro x p
    by_cases hx : x = b
    · subst hx
      rw [Function.update_self, List.mem_append]
      simp
    · rw [Function.update_of_ne hx]
      simp [hx]
  refine ⟨ir', _, phi, _, hrun, ⟨hfilled, fun m c hm => ?_, fun x => ?_, fun x p hp => ?_⟩,
    fun x p hp => ?_, fun x p hp => ?_, fun x => ?_⟩
  · dsimp only
    by_cases hmn : m = n
    · subst hmn
      obtain rfl : b = c := Option.some.inj (hn.symm.trans hm)
      rw [Function.update_self, Function.update_self, hinfo]
    · have hcb : c ≠ b := ne_of_positions hdoms.nodup hm hn hmn
      rw [Function.update_of_ne hmn, Function.update_of_ne hcb]
      exact h.info m c hm
  · by_cases hx : x = b
    · subst hx
      rw [Function.update_self]
      refine List.pairwise_append.mpr ⟨h.distinct x, ?_, fun p hp q hq => ?_⟩
      · rcases hnew with ⟨rfl, -⟩ | ⟨rfl, -, -⟩
        · exact .nil
        · exact List.pairwise_singleton _ _
      · rcases hnew with ⟨rfl, -⟩ | ⟨rfl, -, hne⟩
        · cases hq
        · rw [List.mem_singleton.mp hq, hkey]
          exact hne p hp
    · rw [Function.update_of_ne hx]
      exact h.distinct x
  · rcases (hmem x p).mp hp with hp | ⟨rfl, -⟩
    · exact h.inside x p hp
    · exact hb
  · rcases (hmem x p).mp hp with hp | ⟨-, hp⟩
    · exact h.cases x p hp
    · rw [hnewa p hp]
      exact .inl hrId
  · exact (hmem x p).mpr (.inl (h.frame x p hp))
  · rw [← h.hasPhi]
    constructor
    · rintro ⟨p, hp, hpa⟩
      exact ((hmem x p).mp hp).imp (fun hp => ⟨p, hp, hpa⟩) And.left
    · rintro (⟨p, hp, hpa⟩ | rfl)
      · exact ⟨p, (hmem x p).mpr (.inl hp), hpa⟩
      · refine ⟨phi, ?_, hrId⟩
        rw [Function.update_self]
        exact hphi

/-- **One block of a frontier** gets its phi, and is put on the worklist unless it has been
there. -/
theorem placePhi_spec (type : DataType)
    (h : Placing ir entry doms df blockInfo old k a starts processed found phis s)
    (hb : Reachable (cfgEdge ir) entry b) (hplaced : PlacedAt df (k ≠ 0) (· ∈ starts) b) :
    ∃ phis' s', placePhi doms k a type s b = some s' ∧
      Placing ir entry doms df blockInfo old k a starts processed (fun x => found x ∨ x = b)
        phis' s' ∧ pending doms processed s' ≤ pending doms processed s := by
  obtain ⟨n, hn, hnum⟩ := hdoms.exists_number hb
  obtain ⟨ir', bInfo, phi, phis', hrun, hok, hcases, hframe, hhas⟩ :=
    h.getOrCreate hheap hdoms hold type hb hn
  have hplace : placePhi doms k a type s b = if s.lastIteration n < k
      then some { s with
        ir := ir'
        blockInfo := Function.update s.blockInfo n bInfo
        lastIteration := Function.update s.lastIteration n k
        worklist := s.worklist ++ [(.inst phi.phiInst, b)] }
      else some { s with ir := ir', blockInfo := Function.update s.blockInfo n bInfo } := by
    rw [placePhi, hnum, Option.bind_eq_bind, Option.bind_some, hrun]
    rfl
  rw [hplace]
  by_cases hlt : s.lastIteration n < k
  · rw [if_pos hlt]
    have hk : k ≠ 0 := by omega
    have hnot : b ∉ queued processed s := fun hmem => hlt.ne ((h.stamp hk n b hn).mpr hmem)
    set s' : PlaceState := { s with
      ir := ir'
      blockInfo := Function.update s.blockInfo n bInfo
      lastIteration := Function.update s.lastIteration n k
      worklist := s.worklist ++ [(.inst phi.phiInst, b)] } with hs'
    have hq : queued processed s' = queued processed s ++ [b] := by
      unfold queued
      rw [hs', List.map_append, ← List.append_assoc]
      rfl
    refine ⟨phis', s', rfl, ⟨⟨hok.filled, hok.info, hok.distinct, hok.inside⟩, hcases, hframe, hhas,
      fun m => ?_, fun _ m c hm => ?_, fun c hc => ?_, ?_,
      fun c hc => hc.elim (h.sound c) fun heq => heq ▸ hplaced, fun c hc => ?_,
      fun _ c hc => ?_, ?_⟩, ?_⟩
    · exact stamp_le_update h.stamp_le n m
    · rw [hq]
      exact stamp_update hdoms.nodup hn (h.stamp hk) m c hm
    · rw [hq] at hc
      rcases List.mem_append.mp hc with hc | hc
      · exact h.reach c hc
      · rw [List.mem_singleton.mp hc]
        exact hb
    · rw [hq]
      exact fun c hc => List.mem_append_left _ (h.started hc)
    · rw [hq] at hc
      rcases List.mem_append.mp hc with hc | hc
      · exact h.source c hc
      · rw [List.mem_singleton.mp hc]
        exact .inr ⟨hk, hplaced⟩
    · rw [hq, List.mem_append, List.mem_singleton]
      exact hc.imp (h.grown hk c) id
    · rw [hq]
      refine List.nodup_append.mpr ⟨h.nodup, List.nodup_singleton b, fun x hx y hy hxy => ?_⟩
      rw [List.mem_singleton.mp hy] at hxy
      exact hnot (hxy ▸ hx)
    · have hless := length_filter_notMem_concat ((hdoms.mem b).mpr hb) hnot
      unfold pending
      rw [hq, hs', List.length_append, List.length_singleton]
      omega
  · rw [if_neg hlt]
    refine ⟨phis', _, rfl, ⟨hok, hcases, hframe, hhas, h.stamp_le, h.stamp, h.reach, h.started,
      fun c hc => hc.elim (h.sound c) fun heq => heq ▸ hplaced, h.source, fun hk c hc => ?_,
      h.nodup⟩, le_rfl⟩
    rcases hc with hc | rfl
    · exact h.grown hk c hc
    · exact (h.stamp hk n c hn).mp (le_antisymm (h.stamp_le n) (Nat.le_of_not_lt hlt))

/-- **The loop over a frontier.** -/
theorem placePhis_frontier (type : DataType) (l : List ℕ)
    (hl : ∀ b ∈ l, Reachable (cfgEdge ir) entry b ∧ PlacedAt df (k ≠ 0) (· ∈ starts) b)
    (h : Placing ir entry doms df blockInfo old k a starts processed found phis s) :
    ∃ phis' s', l.foldlM (placePhi doms k a type) s = some s' ∧
      Placing ir entry doms df blockInfo old k a starts processed (fun x => found x ∨ x ∈ l)
        phis' s' ∧ pending doms processed s' ≤ pending doms processed s := by
  induction l generalizing found phis s with
  | nil =>
      refine ⟨phis, s, rfl, ?_, le_rfl⟩
      simpa using h
  | cons b l ih =>
      obtain ⟨phis₁, s₁, hrun₁, h₁, hle₁⟩ :=
        placePhi_spec hheap hdoms hold type h (hl b List.mem_cons_self).1
          (hl b List.mem_cons_self).2
      obtain ⟨phis', s', hrun, h', hle⟩ := ih (fun c hc => hl c (List.mem_cons_of_mem _ hc)) h₁
      refine ⟨phis', s', ?_, ?_, hle.trans hle₁⟩
      · rw [List.foldlM_cons, hrun₁]
        exact hrun
      · simpa only [List.mem_cons, or_assoc] using h'

/-- **The worklist loop** ends, with a phi in each block that is found, when it has taken all
blocks: one in each step but the last. -/
theorem placeLoop_spec
    (hdf : ∀ x, Reachable (cfgEdge ir) entry x → ∀ y ∈ domfrontiersGet df x,
      Reachable (cfgEdge ir) entry y)
    (fuel : ℕ) (h : Placing ir entry doms df blockInfo old k a starts processed
      (fun y => ∃ x ∈ processed, y ∈ domfrontiersGet df x) phis s)
    (hfuel : pending doms processed s < fuel) :
    ∃ phis' s' processed', (∀ steps, placeLoop doms df k a steps s =
        if processed'.length < processed.length + steps then some s' else none) ∧
      s'.worklist = [] ∧ Placing ir entry doms df blockInfo old k a starts processed'
        (fun y => ∃ x ∈ processed', y ∈ domfrontiersGet df x) phis' s' := by
  induction fuel generalizing processed phis s with
  | zero => exact absurd hfuel (Nat.not_lt_zero _)
  | succ fuel ih =>
      cases hw : s.worklist with
      | nil =>
          refine ⟨phis, s, processed, fun steps => ?_, hw, h⟩
          cases steps with
          | zero => exact (if_neg (lt_irrefl _)).symm
          | succ steps =>
              rw [placeLoop, hw, if_pos (by omega)]
      | cons e worklist =>
          obtain ⟨value, block⟩ := e
          set s₀ : PlaceState := { s with worklist := worklist } with hs₀
          have hq : queued (processed ++ [block]) s₀ = queued processed s := by
            unfold queued
            rw [hw, hs₀, List.append_assoc]
            rfl
          have hmem : block ∈ queued processed s := by
            rw [← hq]
            exact List.mem_append_left _ (List.mem_append_right _ List.mem_cons_self)
          have hblock := h.reach block hmem
          have hsource := h.source block hmem
          have h₀ : Placing ir entry doms df blockInfo old k a starts (processed ++ [block])
              (fun y => ∃ x ∈ processed, y ∈ domfrontiersGet df x) phis s₀ := by
            refine ⟨⟨h.filled, h.info, h.distinct, h.inside⟩, h.cases, h.frame, h.hasPhi, h.stamp_le,
              ?_, ?_, ?_, ?_, ?_, ?_, ?_⟩
            · rw [hq]
              exact h.stamp
            · rw [hq]
              exact h.reach
            · rw [hq]
              exact h.started
            · exact h.sound
            · rw [hq]
              exact h.source
            · rw [hq]
              exact h.grown
            · rw [hq]
              exact h.nodup
          have hpending : pending doms (processed ++ [block]) s₀ < pending doms processed s := by
            unfold pending
            rw [hq, hw]
            exact Nat.lt_succ_self _
          have hfrontier : ∀ y ∈ domfrontiersGet df block, Reachable (cfgEdge ir) entry y ∧
              PlacedAt df (k ≠ 0) (· ∈ starts) y := by
            intro y hy
            refine ⟨hdf block hblock y hy, ?_⟩
            rcases hsource with hstart | ⟨hk, hplaced⟩
            · exact .start hstart hy
            · exact .step hk hplaced hy
          obtain ⟨phis₁, s₁, hrun₁, h₁, hle₁⟩ := placePhis_frontier
            hheap hdoms hold (s.ir.dataType value) (domfrontiersGet df block) hfrontier h₀
          have hfound : (fun y => (∃ x ∈ processed, y ∈ domfrontiersGet df x) ∨
              y ∈ domfrontiersGet df block) =
              fun y => ∃ x ∈ processed ++ [block], y ∈ domfrontiersGet df x := by
            funext y
            apply propext
            simp [or_and_right, exists_or]
          rw [hfound] at h₁
          obtain ⟨phis', s', processed', hrun, hnil, h'⟩ := ih h₁ (by omega)
          rw [List.length_append, List.length_singleton] at hrun
          refine ⟨phis', s', processed', fun steps => ?_, hnil, h'⟩
          cases steps with
          | zero =>
              -- even without a block on the rest of the worklist there is one step more
              have hzero := hrun 0
              rw [placeLoop] at hzero
              refine (if_neg fun hlt => ?_).symm
              rw [if_pos (by omega)] at hzero
              cases hzero
          | succ steps =>
              rw [placeLoop, hw]
              show ((domfrontiersGet df block).foldlM (placePhi doms k a (s.ir.dataType value))
                s₀).bind _ = _
              rw [hrun₁, show processed.length + (steps + 1) = processed.length + 1 + steps by omega]
              exact hrun steps

end Placing

/-! ## One variable -/

/-- The reachable blocks that assign the register. -/
def Assigning (ir : Ir) (entry a b : ℕ) : Prop :=
  Reachable (cfgEdge ir) entry b ∧ ∃ i ∈ ir.blocks b, (ir.insts i).type = .assignVar a

/-- Between two variables: the first `k` have their phis. -/
structure Placed (ir : Ir) (entry : ℕ) (doms : Dominators) (df : DomFrontiers)
    (blockInfo : ℕ → BlockInfo) (vm : VariableMap) (k : ℕ) (phis : ℕ → List PhiInfo)
    (s : PlaceState) : Prop extends PlaceOk ir entry doms blockInfo phis s where
  reg : ∀ b, ∀ p ∈ phis b, ∃ m < k, vm.list[m]? = some (toInt p.rId) ∧
    ∃ rInfo, vm.regs (toInt p.rId) = some rInfo ∧ rInfo.rId = p.rId
  stamp_le : ∀ n, s.lastIteration n ≤ k - 1
  placed : ∀ m < k, ∀ key rInfo, vm.list[m]? = some key → vm.regs key = some rInfo → ∀ b,
    HasPhi phis b rInfo.rId ↔ PlacedAt df (m ≠ 0) (Assigning ir entry rInfo.rId) b

section Variable

variable {ir : Ir} {entry : ℕ} {doms : Dominators} {df : DomFrontiers}
  {blockInfo : ℕ → BlockInfo} {vm : VariableMap} {phis : ℕ → List PhiInfo} {k : ℕ}
  {s : PlaceState}

/-- The registers of the variables. -/
theorem RegsOk.intReg {bs : List ℕ} (h : RegsOk ir bs doms.postorder vm)
    (hdoms : CorrectDoms ir entry doms) (hform : LoadAssignForm ir entry) {key : ℤ}
    {rInfo : RegInfo} (hr : vm.regs key = some rInfo) : IntReg rInfo.rId := by
  obtain ⟨b, hb, i, hi, ha⟩ := h.reg key rInfo hr
  exact hform.reg b ((hdoms.mem b).mp hb) i hi _ ha

/-- The blocks of the assigns of a variable are those that assign it. -/
theorem RegsOk.mem_assigns (h : RegsOk ir doms.postorder doms.postorder vm) (hheap : HeapOk ir)
    (hdoms : CorrectDoms ir entry doms) (hform : LoadAssignForm ir entry) {key : ℤ}
    {rInfo : RegInfo} (hr : vm.regs key = some rInfo) (b : ℕ) :
    b ∈ rInfo.assigns.map (fun i => (ir.insts i).parent) ↔ Assigning ir entry rInfo.rId b := by
  have hkey := h.key key rInfo hr
  have hreg := h.intReg hdoms hform hr
  rw [List.mem_map]
  constructor
  · rintro ⟨i, hi, rfl⟩
    obtain ⟨c, hc, hic, a, ha, hac⟩ := h.assigns key rInfo hr i hi
    have hreach := (hdoms.mem c).mp hc
    have hareg : IntReg a := hform.reg c hreach i hic a (by rw [ha]; rfl)
    rw [← hkey, toInt_reg_inj hareg hreg] at hac
    subst hac
    rw [hheap.parent c i hic]
    exact ⟨hreach, i, hic, ha⟩
  · rintro ⟨hreach, i, hi, ha⟩
    obtain ⟨rInfo', hr', hassign⟩ := h.has b ((hdoms.mem b).mpr hreach) i hi rInfo.rId
      (by rw [ha]; rfl)
    rw [hkey, hr] at hr'
    obtain rfl := Option.some.inj hr'
    obtain ⟨j, hj, hjb⟩ := hassign ha
    exact ⟨j, hj, hheap.parent b j hjb⟩

/-- **The loop over the assigns** puts their blocks on the worklist. -/
theorem placeAssigns_spec (hheap : HeapOk ir) (hdoms : CorrectDoms ir entry doms)
    (hform : LoadAssignForm ir entry) (hfilled : Filled ir phis s.ir) (l : List ℕ)
    (hl : ∀ i ∈ l, ∃ b, Reachable (cfgEdge ir) entry b ∧ i ∈ ir.blocks b ∧
      ∃ a, (ir.insts i).type = .assignVar a) (hk : ∀ n, s.lastIteration n ≤ k)
    (hstamp : k ≠ 0 → ∀ n b : ℕ, doms.postorder[n]? = some b →
      (s.lastIteration n = k ↔ b ∈ s.worklist.map Prod.snd)) :
    ∃ s', l.foldlM (placeAssign doms k) s = some s' ∧ s'.ir = s.ir ∧ s'.blockInfo = s.blockInfo ∧
      s'.worklist.map Prod.snd =
        s.worklist.map Prod.snd ++ l.map (fun i => (ir.insts i).parent) ∧
      (∀ n, s'.lastIteration n ≤ k) ∧
      (k ≠ 0 → ∀ n b : ℕ, doms.postorder[n]? = some b →
        (s'.lastIteration n = k ↔ b ∈ s'.worklist.map Prod.snd)) := by
  induction l generalizing s with
  | nil => exact ⟨s, rfl, rfl, rfl, (List.append_nil _).symm, hk, hstamp⟩
  | cons i l ih =>
      obtain ⟨b, hb, hi, a, ha⟩ := hl i List.mem_cons_self
      have hinst : s.ir.insts i = ir.insts i := hfilled.insts_of_mem hheap hi
      have hparent : (ir.insts i).parent = b := hheap.parent b i hi
      obtain ⟨n, hn, hnum⟩ := hdoms.exists_number hb
      obtain ⟨v, hv⟩ := hform.assign b hb i hi a ha
      have hop : s.ir.operand ⟨i, 0⟩ = some v := by
        unfold Ir.operand
        dsimp only
        rw [hinst, hv]
        rfl
      set s₁ : PlaceState := { s with
        lastIteration := Function.update s.lastIteration n k
        worklist := s.worklist ++ [(v, b)] } with hs₁
      have hstep : placeAssign doms k s i = some s₁ := by
        unfold placeAssign
        dsimp only
        rw [hinst, hparent, hnum, hop]
        rfl
      have hmap : s₁.worklist.map Prod.snd = s.worklist.map Prod.snd ++ [b] := List.map_append
      obtain ⟨s', hrun, hir, hinfo, hwork, hle, hst⟩ := ih (s := s₁) hfilled
        (fun j hj => hl j (List.mem_cons_of_mem _ hj)) (stamp_le_update hk n)
        (fun hk0 m c hm => by
          rw [hmap]
          exact stamp_update hdoms.nodup hn (hstamp hk0) m c hm)
      refine ⟨s', ?_, hir, hinfo, ?_, hle, hst⟩
      · rw [List.foldlM_cons, hstep]
        exact hrun
      · rw [hwork, hmap, List.append_assoc, List.map_cons, hparent]
        rfl

/-- **One variable**: its steps are those of its worklist. -/
theorem placeVariable_spec (hheap : HeapOk ir) (hdoms : CorrectDoms ir entry doms)
    (hform : LoadAssignForm ir entry) (hregs : RegsOk ir doms.postorder doms.postorder vm)
    (hdf : ∀ x, Reachable (cfgEdge ir) entry x → ∀ y ∈ domfrontiersGet df x,
      Reachable (cfgEdge ir) entry y) {key : ℤ} {rInfo : RegInfo}
    (hkey : vm.list[k]? = some key) (hr : vm.regs key = some rInfo)
    (hapart : (rInfo.assigns.map fun i => (ir.insts i).parent).Nodup)
    (h : Placed ir entry doms df blockInfo vm k phis s) :
    ∃ phis' s', ∃ q : List ℕ, (∀ fuel, placeVariable doms df fuel vm s k =
        if q.length < fuel then some s' else none) ∧
      q.Nodup ∧ (∀ x, x ∈ q ↔ OnWorklist df (k ≠ 0) (Assigning ir entry rInfo.rId) x) ∧
      Placed ir entry doms df blockInfo vm (k + 1) phis' s' := by
  have hrId := hregs.key key rInfo hr
  have hklt := (List.getElem?_eq_some_iff.mp hkey).1
  have hold : ∀ b, ∀ p ∈ phis b, toInt p.rId ≠ toInt rInfo.rId := by
    intro b p hp heq
    obtain ⟨m, hm, hlist, -⟩ := h.reg b p hp
    rw [heq, hrId, ← hkey] at hlist
    exact hm.ne ((List.getElem?_inj (hm.trans hklt) hregs.nodup).mp hlist)
  have hassigns := hregs.mem_assigns hheap hdoms hform hr
  obtain ⟨s₁, hrun₁, hir₁, hinfo₁, hwork₁, hle₁, hst₁⟩ := placeAssigns_spec (k := k)
    (s := { s with worklist := [] }) hheap hdoms hform h.filled rInfo.assigns
    (fun i hi => by
      obtain ⟨b, hb, hib, a, ha, -⟩ := hregs.assigns key rInfo hr i hi
      exact ⟨b, (hdoms.mem b).mp hb, hib, a, ha⟩)
    (fun n => (h.stamp_le n).trans (Nat.sub_le k 1))
    (fun hk n b _ => iff_of_false (fun heq => by
      have := h.stamp_le n
      dsimp only at heq
      omega) List.not_mem_nil)
  have hq : queued [] s₁ = rInfo.assigns.map (fun i => (ir.insts i).parent) := by
    unfold queued
    rw [hwork₁]
    rfl
  have hstart : Placing ir entry doms df blockInfo phis k rInfo.rId
      (rInfo.assigns.map (fun i => (ir.insts i).parent)) []
      (fun y => ∃ x ∈ [], y ∈ domfrontiersGet df x) phis s₁ := by
    refine ⟨⟨hir₁ ▸ h.filled, hinfo₁ ▸ h.info, h.distinct, h.inside⟩, fun b p hp => .inr hp,
      fun b p hp => hp, fun b => ?_, hle₁, fun hk n b hn => ?_, fun b hb => ?_, ?_,
      fun b hb => ?_, fun b hb => ?_, fun hk b hb => ?_, hq ▸ hapart⟩
    · refine iff_of_false ?_ (by simp)
      rintro ⟨p, hp, hpa⟩
      exact hold b p hp (by rw [hpa])
    · exact hst₁ hk n b hn
    · rw [hq] at hb
      exact ((hassigns b).mp hb).1
    · rw [hq]
      exact List.Subset.refl _
    · obtain ⟨x, hx, -⟩ := hb
      exact absurd hx List.not_mem_nil
    · rw [hq] at hb
      exact .inl hb
    · obtain ⟨x, hx, -⟩ := hb
      exact absurd hx List.not_mem_nil
  obtain ⟨phis', s', processed, hrun, hnil, h'⟩ := placeLoop_spec hheap hdoms hold hdf _ hstart
    (Nat.lt_succ_self _)
  rw [List.length_nil] at hrun
  have hqueued : queued processed s' = processed := by
    unfold queued
    rw [hnil]
    exact List.append_nil _
  have hfound : ∀ {b}, PlacedAt df (k ≠ 0)
      (· ∈ rInfo.assigns.map (fun i => (ir.insts i).parent)) b →
      ∃ x ∈ processed, b ∈ domfrontiersGet df x := by
    intro b hb
    induction hb with
    | start hx hy => exact ⟨_, hqueued ▸ h'.started hx, hy⟩
    | step hk _ hy ih => exact ⟨_, hqueued ▸ h'.grown hk _ ih, hy⟩
  refine ⟨phis', s', processed, fun fuel => ?_, hqueued ▸ h'.nodup, fun x => ?_, h'.toPlaceOk,
    fun b p hp => ?_, fun n => h'.stamp_le n, fun m hm key' rInfo' hkey' hr' b => ?_⟩
  · unfold placeVariable
    rw [hkey]
    show ((vm.regs key).bind fun var => _) = _
    rw [hr]
    show (List.foldlM (placeAssign doms k) { s with worklist := [] } rInfo.assigns).bind _ = _
    rw [hrun₁]
    have hsteps := hrun fuel
    rw [Nat.zero_add] at hsteps
    exact hsteps
  · unfold OnWorklist
    rw [← PlacedAt.congr hassigns, ← hassigns]
    constructor
    · intro hx
      rw [← hqueued] at hx
      exact h'.source x hx
    · rintro (hx | ⟨hk, hx⟩)
      · exact hqueued ▸ h'.started hx
      · exact hqueued ▸ h'.grown hk x (hfound hx)
  · rcases h'.cases b p hp with hpa | hp
    · rw [hpa, hrId]
      exact ⟨k, Nat.lt_succ_self k, hkey, rInfo, hr, rfl⟩
    · obtain ⟨m, hm, hrest⟩ := h.reg b p hp
      exact ⟨m, hm.trans (Nat.lt_succ_self k), hrest⟩
  · rcases Nat.lt_succ_iff_lt_or_eq.mp hm with hm | rfl
    · -- the phis of the earlier variables
      have hne : rInfo'.rId ≠ rInfo.rId := by
        intro heq
        have hkeys : key' = key := by
          rw [← hregs.key key' rInfo' hr', heq, hrId]
        rw [hkeys, ← hkey] at hkey'
        exact hm.ne ((List.getElem?_inj (hm.trans hklt) hregs.nodup).mp hkey')
      rw [← h.placed m hm key' rInfo' hkey' hr' b]
      constructor
      · rintro ⟨p, hp, hpa⟩
        exact ⟨p, (h'.cases b p hp).resolve_left fun heq => hne (hpa.symm.trans heq), hpa⟩
      · rintro ⟨p, hp, hpa⟩
        exact ⟨p, h'.frame b p hp, hpa⟩
    · obtain rfl : key = key' := Option.some.inj (hkey.symm.trans hkey')
      obtain rfl := Option.some.inj (hr.symm.trans hr')
      rw [h'.hasPhi, ← PlacedAt.congr hassigns]
      exact ⟨h'.sound b, hfound⟩

end Variable

/-! ## All variables -/

section All

variable {ir : Ir} {entry : ℕ} {doms : Dominators} {df : DomFrontiers}
  {blockInfo : ℕ → BlockInfo} {vm : VariableMap}

/-- The worklists of the first `k` variables. -/
def Queues (ir : Ir) (entry : ℕ) (df : DomFrontiers) (vm : VariableMap) (k : ℕ)
    (queues : ℕ → List ℕ) : Prop :=
  ∀ m < k, (queues m).Nodup ∧ ∀ key rInfo, vm.list[m]? = some key → vm.regs key = some rInfo →
    ∀ x, x ∈ queues m ↔ OnWorklist df (m ≠ 0) (Assigning ir entry rInfo.rId) x

/-- The first variables. -/
theorem placeVariables_spec (hheap : HeapOk ir) (hdoms : CorrectDoms ir entry doms)
    (hform : LoadAssignForm ir entry) (h : Analyzed ir doms blockInfo vm)
    (hdf : ∀ x, Reachable (cfgEdge ir) entry x → ∀ y ∈ domfrontiersGet df x,
      Reachable (cfgEdge ir) entry y) (k : ℕ) (hk : k ≤ vm.list.length) :
    ∃ phis s queues, Queues ir entry df vm k queues ∧
      Placed ir entry doms df blockInfo vm k phis s ∧
      ∀ fuel, (List.range k).foldlM (placeVariable doms df fuel vm)
          { ir := ir, blockInfo := blockInfo, lastIteration := fun _ => 0 } =
        if ∀ m < k, (queues m).length < fuel then some s else none := by
  induction k with
  | zero =>
      refine ⟨fun _ => [], { ir := ir, blockInfo := blockInfo, lastIteration := fun _ => 0 },
        fun _ => [], fun m hm => absurd hm (Nat.not_lt_zero m),
        ⟨⟨.start hheap, fun n b hn => ?_, fun _ => .nil, fun b p hp => absurd hp List.not_mem_nil⟩,
          fun b p hp => absurd hp List.not_mem_nil, fun _ => le_rfl,
          fun m hm => absurd hm (Nat.not_lt_zero m)⟩, fun fuel => ?_⟩
      · have hphi := (h.info n b hn).phiList
        dsimp only
        rw [← hphi]
      · exact (if_pos fun m hm => absurd hm (Nat.not_lt_zero m)).symm
  | succ k ih =>
      obtain ⟨phis, s, queues, hqueues, hplaced, hrun⟩ := ih (Nat.le_of_succ_le hk)
      have hget : vm.list[k]? = some vm.list[k] := List.getElem?_eq_getElem hk
      obtain ⟨rInfo, hr⟩ := Option.ne_none_iff_exists'.mp
        ((h.regs.mem_list _).mp (List.getElem_mem hk))
      obtain ⟨phis', s', q, hvariable, hnodup, hmem, hplaced'⟩ := placeVariable_spec hheap hdoms
        hform h.regs hdf hget hr (h.apart _ rInfo hr) hplaced
      have hbefore : ∀ m < k, Function.update queues k q m = queues m :=
        fun m hm => Function.update_of_ne hm.ne q queues
      refine ⟨phis', s', Function.update queues k q, fun m hm => ?_, hplaced', fun fuel => ?_⟩
      · rcases Nat.lt_succ_iff_lt_or_eq.mp hm with hm | rfl
        · rw [hbefore m hm]
          exact hqueues m hm
        · rw [Function.update_self]
          refine ⟨hnodup, fun key rInfo' hkey hr' => ?_⟩
          obtain rfl := Option.some.inj (hget.symm.trans hkey)
          obtain rfl := Option.some.inj (hr.symm.trans hr')
          exact hmem
      · rw [List.range_succ, List.foldlM_append, hrun]
        have hall : (∀ m < k + 1, (Function.update queues k q m).length < fuel) ↔
            (∀ m < k, (queues m).length < fuel) ∧ q.length < fuel := by
          rw [Nat.forall_lt_succ_right, Function.update_self]
          refine and_congr_left fun _ => forall₂_congr fun m hm => ?_
          rw [hbefore m hm]
        simp only [hall]
        by_cases hfuel : ∀ m < k, (queues m).length < fuel
        · rw [if_pos hfuel]
          show (placeVariable doms df fuel vm s k).bind _ = _
          rw [hvariable]
          by_cases hq : q.length < fuel
          · rw [if_pos hq, if_pos ⟨hfuel, hq⟩]
            rfl
          · rw [if_neg hq, if_neg fun hboth => hq hboth.2]
            rfl
        · rw [if_neg hfuel, if_neg fun hboth => hfuel hboth.1]
          rfl

/-- **Step 2 of `ssa_convert`**: the number of steps in which it ends, and where the phis are. -/
theorem placePhis_queues (hheap : HeapOk ir) (hdoms : CorrectDoms ir entry doms)
    (hform : LoadAssignForm ir entry) (h : Analyzed ir doms blockInfo vm)
    (hdf : ∀ x, Reachable (cfgEdge ir) entry x → ∀ y ∈ domfrontiersGet df x,
      Reachable (cfgEdge ir) entry y) :
    ∃ phis s queues, Queues ir entry df vm vm.list.length queues ∧
      Placed ir entry doms df blockInfo vm vm.list.length phis s ∧
      ∀ fuel, placePhis doms df fuel ir blockInfo vm =
        if ∀ m < vm.list.length, (queues m).length < fuel then some s else none :=
  placeVariables_spec hheap hdoms hform h hdf vm.list.length le_rfl

/-- **Step 2 of `ssa_convert`** ends, and every variable has its phis. -/
theorem placePhis_spec (hheap : HeapOk ir) (hdoms : CorrectDoms ir entry doms)
    (hform : LoadAssignForm ir entry) (h : Analyzed ir doms blockInfo vm)
    (hdf : ∀ x, Reachable (cfgEdge ir) entry x → ∀ y ∈ domfrontiersGet df x,
      Reachable (cfgEdge ir) entry y) {fuel : ℕ} (hfuel : doms.elementCount < fuel) :
    ∃ phis s, placePhis doms df fuel ir blockInfo vm = some s ∧
      Placed ir entry doms df blockInfo vm vm.list.length phis s := by
  obtain ⟨phis, s, queues, hqueues, hplaced, hrun⟩ := placePhis_queues hheap hdoms hform h hdf
  refine ⟨phis, s, ?_, hplaced⟩
  rw [hrun, if_pos]
  -- the blocks of a worklist are different reachable blocks
  intro m hm
  obtain ⟨hnodup, hmem⟩ := hqueues m hm
  have hget : vm.list[m]? = some vm.list[m] := List.getElem?_eq_getElem hm
  obtain ⟨rInfo, hr⟩ := Option.ne_none_iff_exists'.mp
    ((h.regs.mem_list _).mp (List.getElem_mem hm))
  have hsub : queues m ⊆ doms.postorder := by
    intro x hx
    refine (hdoms.mem x).mpr ?_
    rcases (hmem _ rInfo hget hr x).mp hx with hx | ⟨-, hx⟩
    · exact hx.1
    · exact hx.reachable hdf fun _ hy => hy.1
  have hle := (hnodup.subperm hsub).length_le
  rw [← hdoms.count] at hle
  exact hle.trans_lt hfuel

end All
