/-
# Dominators that can be checked

`Chains ir entry n chain` : the blocks below `n` are the reachable ones, and the dominators of
a block lie on a walk to it, which is its chain.  All conditions are about finitely many
blocks, so that for a given function the dominators (`Chains.correctDoms`), the frontiers
(`Chains.correctFrontiers`) and the load/assign form (`Chains.ssaFunction`) are checked by
evaluation.
-/
import MCompiler.SsaFunction

open FlowGraph

/-- The walk `chain b` leads to `b` over its immediate dominators; along an edge, nothing but
the target joins a chain. -/
structure Chains (ir : Ir) (entry n : ℕ) (chain : ℕ → List ℕ) : Prop where
  lt : entry < n
  root : chain entry = [entry]
  edge : ∀ a < n, ∀ b ∈ blockSuccessors ir a, b < n ∧ chain b ⊆ chain a ++ [b]
  walk : ∀ b < n, b ≠ entry → ∃ a < n, b ∈ blockSuccessors ir a ∧ chain b = chain a ++ [b]

instance (ir : Ir) (entry n : ℕ) (chain : ℕ → List ℕ) : Decidable (Chains ir entry n chain) :=
  decidable_of_iff
    (entry < n ∧ chain entry = [entry] ∧
      (∀ a < n, ∀ b ∈ blockSuccessors ir a, b < n ∧ chain b ⊆ chain a ++ [b]) ∧
      ∀ b < n, b ≠ entry → ∃ a < n, b ∈ blockSuccessors ir a ∧ chain b = chain a ++ [b])
    ⟨fun ⟨h₁, h₂, h₃, h₄⟩ => ⟨h₁, h₂, h₃, h₄⟩, fun ⟨h₁, h₂, h₃, h₄⟩ => ⟨h₁, h₂, h₃, h₄⟩⟩

/-- The data of `doms` agree with the chains. -/
structure ChainsDoms (entry n : ℕ) (chain : ℕ → List ℕ) (doms : Dominators) : Prop where
  count : doms.elementCount = doms.postorder.length
  postorder : doms.postorder.Perm (List.range n)
  root : dominatorsGetIDom doms entry = some entry
  idom : ∀ b < n, b ≠ entry → ∃ d, dominatorsGetIDom doms b = some d ∧ d < n ∧
    chain b = chain d ++ [b]
  number : ∀ i < n, ∃ b, doms.postorder[i]? = some b ∧
    dominatorsGetNumber doms.nodeToNum b = some i
  childs : ∀ b < n, ∃ cs, dominatorChilds doms b = some cs ∧ (∀ c ∈ cs, c < n) ∧
    ∀ c < n, c ∈ cs ↔ c ≠ entry ∧ chain c = chain b ++ [c]

set_option synthInstance.maxSize 1000 in
instance (entry n : ℕ) (chain : ℕ → List ℕ) (doms : Dominators) :
    Decidable (ChainsDoms entry n chain doms) :=
  decidable_of_iff
    (doms.elementCount = doms.postorder.length ∧ doms.postorder.Perm (List.range n) ∧
      dominatorsGetIDom doms entry = some entry ∧
      (∀ b < n, b ≠ entry → ∃ d, dominatorsGetIDom doms b = some d ∧ d < n ∧
        chain b = chain d ++ [b]) ∧
      (∀ i < n, ∃ b, doms.postorder[i]? = some b ∧
        dominatorsGetNumber doms.nodeToNum b = some i) ∧
      ∀ b < n, ∃ cs, dominatorChilds doms b = some cs ∧ (∀ c ∈ cs, c < n) ∧
        ∀ c < n, c ∈ cs ↔ c ≠ entry ∧ chain c = chain b ++ [c])
    ⟨fun ⟨h₁, h₂, h₃, h₄, h₅, h₆⟩ => ⟨h₁, h₂, h₃, h₄, h₅, h₆⟩,
      fun ⟨h₁, h₂, h₃, h₄, h₅, h₆⟩ => ⟨h₁, h₂, h₃, h₄, h₅, h₆⟩⟩

/-- The lists of `df` agree with the chains. -/
def ChainsFrontiers (ir : Ir) (n : ℕ) (chain : ℕ → List ℕ) (df : DomFrontiers) : Prop :=
  ∀ x < n, (∀ y ∈ domfrontiersGet df x, y < n) ∧ ∀ y < n,
    (y ∈ domfrontiersGet df x ↔ ∃ a < n, y ∈ blockSuccessors ir a ∧ x ∈ chain a ∧
      ¬ (x ≠ y ∧ x ∈ chain y))

set_option synthInstance.maxSize 1000 in
instance (ir : Ir) (n : ℕ) (chain : ℕ → List ℕ) (df : DomFrontiers) :
    Decidable (ChainsFrontiers ir n chain df) :=
  inferInstanceAs (Decidable (∀ x < n, (∀ y ∈ domfrontiersGet df x, y < n) ∧ ∀ y < n,
    (y ∈ domfrontiersGet df x ↔ ∃ a < n, y ∈ blockSuccessors ir a ∧ x ∈ chain a ∧
      ¬ (x ≠ y ∧ x ∈ chain y))))

section Chains

variable {ir : Ir} {entry n : ℕ} {chain : ℕ → List ℕ} {doms : Dominators} {df : DomFrontiers}
  {b c d x : ℕ}

/-- A chain is a walk. -/
theorem Chains.isWalk (h : Chains ir entry n chain) (hb : b < n) :
    Walk (cfgEdge ir) entry (chain b) b := by
  obtain ⟨k, hk⟩ : ∃ k, (chain b).length ≤ k := ⟨_, le_rfl⟩
  induction k generalizing b with
  | zero =>
      by_cases hbe : b = entry
      · rw [hbe, h.root] at hk
        cases hk
      · obtain ⟨a, -, -, hchain⟩ := h.walk b hb hbe
        rw [hchain, List.length_append] at hk
        cases hk
  | succ k ih =>
      by_cases hbe : b = entry
      · rw [hbe, h.root]
        exact .root
      · obtain ⟨a, ha, hE, hchain⟩ := h.walk b hb hbe
        rw [hchain]
        refine .step (ih ha ?_) hE
        rw [hchain, List.length_append] at hk
        exact Nat.le_of_succ_le_succ hk

theorem Chains.reachable_iff (h : Chains ir entry n chain) :
    Reachable (cfgEdge ir) entry b ↔ b < n := by
  constructor
  · rintro ⟨p, hp⟩
    induction hp with
    | root => exact h.lt
    | step _ hE ih => exact (h.edge _ ih _ hE).1
  · exact fun hb => ⟨_, h.isWalk hb⟩

theorem Chains.dominates_iff (h : Chains ir entry n chain) (hb : b < n) :
    Dominates (cfgEdge ir) entry x b ↔ x ∈ chain b :=
  dominates_iff_of_chain h.root (fun a c ha hE => (h.edge a (h.reachable_iff.mp ha) c hE).2)
    (h.isWalk hb)

theorem Chains.mem_self (h : Chains ir entry n chain) (hb : b < n) : b ∈ chain b :=
  (h.dominates_iff hb).mp (.refl b)

/-- The last block before `b` on its chain is its immediate dominator. -/
theorem Chains.isIDom (h : Chains ir entry n chain) (hb : b < n) (hd : d < n) (hbe : b ≠ entry)
    (hchain : chain b = chain d ++ [b]) : IsIDom (cfgEdge ir) entry d b := by
  have hdb : Dominates (cfgEdge ir) entry d b := by
    rw [h.dominates_iff hb, hchain]
    exact List.mem_append_left _ (h.mem_self hd)
  have hne : d ≠ b := by
    rintro rfl
    have hlen := congrArg List.length hchain
    rw [List.length_append] at hlen
    exact absurd hlen (Nat.ne_of_lt (Nat.lt_succ_self _))
  refine ⟨⟨hne, hdb⟩, fun x hx => ?_⟩
  rw [h.dominates_iff hd]
  have hmem := (h.dominates_iff hb).mp hx.2
  rw [hchain] at hmem
  exact (List.mem_append.mp hmem).resolve_right fun hxb => hx.1 (List.mem_singleton.mp hxb)

theorem Chains.isIDom_iff (h : Chains ir entry n chain) (hb : b < n) (hd : d < n) :
    IsIDom (cfgEdge ir) entry d b ↔ b ≠ entry ∧ chain b = chain d ++ [b] := by
  constructor
  · intro hidom
    have hbe : b ≠ entry := by
      rintro rfl
      exact hidom.strict.1 (List.mem_singleton.mp (hidom.strict.2 _ .root))
    obtain ⟨a, ha, -, hchain⟩ := h.walk b hb hbe
    obtain rfl := hidom.unique (h.reachable_iff.mpr hb) (h.isIDom hb ha hbe hchain)
    exact ⟨hbe, hchain⟩
  · exact fun ⟨hbe, hchain⟩ => h.isIDom hb hd hbe hchain

/-- **Dominators that agree with the chains** are correct. -/
theorem Chains.correctDoms (h : Chains ir entry n chain) (hdoms : ChainsDoms entry n chain doms) :
    CorrectDoms ir entry doms where
  count := hdoms.count
  mem b := by
    rw [h.reachable_iff, hdoms.postorder.mem_iff, List.mem_range]
  idom_entry := hdoms.root
  idom b hb hne := by
    have hbn := h.reachable_iff.mp hb
    obtain ⟨d, hd, hdn, hchain⟩ := hdoms.idom b hbn hne
    exact ⟨d, hd, h.isIDom hbn hdn hne hchain⟩
  nodup := hdoms.postorder.nodup_iff.mpr List.nodup_range
  number i b hi := by
    have hlt : i < n := by
      have hlen := hdoms.postorder.length_eq
      rw [List.length_range] at hlen
      rw [← hlen]
      exact (List.getElem?_eq_some_iff.mp hi).1
    obtain ⟨b', hb', hnumber⟩ := hdoms.number i hlt
    obtain rfl := Option.some.inj (hi.symm.trans hb')
    exact hnumber
  childs b hb := by
    have hbn := h.reachable_iff.mp hb
    obtain ⟨cs, hcs, hlt, hmem⟩ := hdoms.childs b hbn
    refine ⟨cs, hcs, fun c => ?_⟩
    rw [h.reachable_iff]
    constructor
    · intro hc
      exact ⟨hlt c hc, (h.isIDom_iff (hlt c hc) hbn).mpr ((hmem c (hlt c hc)).mp hc)⟩
    · rintro ⟨hc, hidom⟩
      exact (hmem c hc).mpr ((h.isIDom_iff hc hbn).mp hidom)

/-- **Frontiers that agree with the chains** are correct. -/
theorem Chains.correctFrontiers (h : Chains ir entry n chain)
    (hdf : ChainsFrontiers ir n chain df) : CorrectFrontiers ir entry df := by
  intro x hx y
  obtain ⟨hlt, hmem⟩ := hdf x (h.reachable_iff.mp hx)
  have hstrict : y < n →
      (StrictlyDominates (cfgEdge ir) entry x y ↔ x ≠ y ∧ x ∈ chain y) := fun hy =>
    and_congr_right fun _ => h.dominates_iff hy
  constructor
  · intro hy
    obtain ⟨a, ha, hE, hxa, hnot⟩ := (hmem y (hlt y hy)).mp hy
    exact ⟨a, hE, h.reachable_iff.mpr ha, (h.dominates_iff ha).mpr hxa,
      fun hs => hnot ((hstrict (hlt y hy)).mp hs)⟩
  · rintro ⟨a, hE, ha, hxa, hnot⟩
    have han := h.reachable_iff.mp ha
    have hy : y < n := (h.edge a han y hE).1
    exact (hmem y hy).mpr ⟨a, han, hE, (h.dominates_iff han).mp hxa,
      fun hs => hnot ((hstrict hy).mpr hs)⟩

/-! ## Load/assign form -/

/-- The instruction `j` of the block `b` is before `i`, or in a strict dominator. -/
def ChainsBefore (ir : Ir) (chain : ℕ → List ℕ) (b i : ℕ) (p : ℕ → Prop) : Prop :=
  (∃ j ∈ (ir.blocks b).takeWhile (· ≠ i), p j) ∨ ∃ x ∈ chain b, x ≠ b ∧ ∃ j ∈ ir.blocks x, p j

instance (ir : Ir) (chain : ℕ → List ℕ) (b i : ℕ) (p : ℕ → Prop) [DecidablePred p] :
    Decidable (ChainsBefore ir chain b i p) :=
  inferInstanceAs (Decidable ((∃ j ∈ (ir.blocks b).takeWhile (· ≠ i), p j) ∨
    ∃ x ∈ chain b, x ≠ b ∧ ∃ j ∈ ir.blocks x, p j))

/-- An operand that is defined before. -/
def ChainsOperand (ir : Ir) (chain : ℕ → List ℕ) (b i : ℕ) : Option Value → Prop
  | some (.inst j) => (ir.insts j).type.hasResult = true ∧ ChainsBefore ir chain b i (· = j)
  | some (.block _) => (ir.insts i).type.isJump = true
  | _ => True

instance (ir : Ir) (chain : ℕ → List ℕ) (b i : ℕ) :
    (o : Option Value) → Decidable (ChainsOperand ir chain b i o)
  | some (.inst j) => inferInstanceAs (Decidable
      ((ir.insts j).type.hasResult = true ∧ ChainsBefore ir chain b i (· = j)))
  | some (.block _) => inferInstanceAs (Decidable ((ir.insts i).type.isJump = true))
  | some (.const _) => inferInstanceAs (Decidable True)
  | none => inferInstanceAs (Decidable True)

/-- An assign has its operand. -/
def Instruction.assignOk (inst : Instruction) : Bool :=
  match inst.type with
  | .assignVar _ =>
      match inst.uses with
      | [some _] => true
      | _ => false
  | _ => true

/-- Registers, assigns, operands and the ends of the blocks below `n` are as they should be. -/
structure ChainsForm (ir : Ir) (n : ℕ) (chain : ℕ → List ℕ) : Prop where
  reg : ∀ b < n, ∀ i ∈ ir.blocks b, ∀ a ∈ (ir.insts i).type.rId, IntReg a
  assign : ∀ b < n, ∀ i ∈ ir.blocks b, (ir.insts i).assignOk = true
  last : ∀ b < n, ∀ i ∈ (ir.blocks b).getLast?, (ir.insts i).type.isLoadAssign = false
  operand : ∀ b < n, ∀ i ∈ ir.blocks b, ∀ o ∈ (ir.insts i).uses, ChainsOperand ir chain b i o

instance (ir : Ir) (n : ℕ) (chain : ℕ → List ℕ) : Decidable (ChainsForm ir n chain) :=
  decidable_of_iff
    ((∀ b < n, ∀ i ∈ ir.blocks b, ∀ a ∈ (ir.insts i).type.rId, IntReg a) ∧
      (∀ b < n, ∀ i ∈ ir.blocks b, (ir.insts i).assignOk = true) ∧
      (∀ b < n, ∀ i ∈ (ir.blocks b).getLast?, (ir.insts i).type.isLoadAssign = false) ∧
      ∀ b < n, ∀ i ∈ ir.blocks b, ∀ o ∈ (ir.insts i).uses, ChainsOperand ir chain b i o)
    ⟨fun ⟨h₁, h₂, h₃, h₄⟩ => ⟨h₁, h₂, h₃, h₄⟩, fun ⟨h₁, h₂, h₃, h₄⟩ => ⟨h₁, h₂, h₃, h₄⟩⟩

/-- An element and what is before it. -/
theorem exists_takeWhile_append {l : List ℕ} {i : ℕ} (hi : i ∈ l) :
    ∃ post, l = l.takeWhile (· ≠ i) ++ i :: post := by
  induction l with
  | nil => cases hi
  | cons j l ih =>
      by_cases hj : j = i
      · subst hj
        exact ⟨l, by simp⟩
      · obtain ⟨post, hpost⟩ := ih ((List.mem_cons.mp hi).resolve_left (Ne.symm hj))
        refine ⟨post, ?_⟩
        rw [List.takeWhile_cons_of_pos (by simpa using hj), List.cons_append, ← hpost]

theorem Chains.strictlyDominates (h : Chains ir entry n chain) (hb : b < n) (hx : x ∈ chain b)
    (hne : x ≠ b) : StrictlyDominates (cfgEdge ir) entry x b := ⟨hne, (h.dominates_iff hb).mpr hx⟩

/-- **A function that is checked** is in load/assign form. -/
theorem Chains.ssaFunction (h : Chains ir entry n chain) (hform : ChainsForm ir n chain) :
    SsaFunction ir entry where
  reg b hb i hi a ha := hform.reg b (h.reachable_iff.mp hb) i hi a ha
  assign b hb i hi a ha := by
    have hok := hform.assign b (h.reachable_iff.mp hb) i hi
    unfold Instruction.assignOk at hok
    rw [ha] at hok
    dsimp only at hok
    split at hok
    · exact ⟨_, ‹_›⟩
    · cases hok
  jump b hb l i hblock hla := by
    have hlast : i ∈ (ir.blocks b).getLast? := by
      rw [hblock, List.getLast?_append, List.getLast?_singleton]
      rfl
    rw [hform.last b (h.reachable_iff.mp hb) i hlast] at hla
    cases hla
  operand b hb i hi _ k v hop := by
    have hbn := h.reachable_iff.mp hb
    have hok := hform.operand b hbn i hi (some v)
      (List.mem_of_getElem? (Option.join_eq_some_iff.mp hop))
    cases v with
    | const c => exact .const c
    | block x => exact .block x hok
    | inst j =>
        refine .inst hok.1 ?_
        rcases hok.2 with ⟨j', hj', rfl⟩ | ⟨x, hx, hne, j', hj', rfl⟩
        · obtain ⟨post, hpost⟩ := exists_takeWhile_append hi
          exact .inl ⟨_, post, hpost, hj'⟩
        · exact .inr ⟨x, h.strictlyDominates hbn hx hne, hj'⟩

end Chains
