/-
# The two postorders

`_visit` of `dominators.c` and `block_computePostorder` of `ir.c` are two depth-first
traversals, one with a hash map of numbers and one with a hash set.  `visitTree` is
`_visit` with a record of the calls: the block in whose call a block was first visited.

`postorders_right_iff`: both list the reachable blocks in the same order, the numbers of
`_visit` are the positions, and an edge to a block with a larger number leads to an
ancestor in the tree of the calls, if and only if at most 250 blocks are reachable.  The
buffers of the postorders have room for no more (`PostorderStored`).
-/
import Mathlib.Logic.Relation
import MCompiler.DominatorsCorrect

open FlowGraph Relation

/-! ## `block_computePostorder` -/

/-- What `pre_visit` changes: the hash set of the visited blocks and the buffer. -/
structure PreVisitState where
  hashset : ℕ → Bool
  dbuffer : List ℕ

/-- `pre_visit`. -/
def preVisit (ir : Ir) : ℕ → PreVisitState → ℕ → Option PreVisitState
  | 0, _, _ => none
  | fuel + 1, s, block =>
      if s.hashset block then some s
      else
        ((blockSuccessors ir block).foldlM (preVisit ir fuel)
          { s with hashset := Function.update s.hashset block true }).map fun s =>
            { s with dbuffer := s.dbuffer ++ [block] }

/-- `block_computePostorder` of a function with the given `entry`. -/
def blockComputePostorder (ir : Ir) (fuel entry : ℕ) : Option (List ℕ) :=
  (preVisit ir fuel ⟨fun _ => false, []⟩ entry).map PreVisitState.dbuffer

/-! ## The tree of the calls -/

/-- The block in whose call a block was first visited. -/
abbrev CallTree := ℕ → Option ℕ

/-- `_visit`, called for `block` from the call for `parent`, with a record of the calls. -/
def visitTree (ir : Ir) : ℕ → VisitState × CallTree → Option ℕ → ℕ →
    Option (VisitState × CallTree)
  | 0, _, _, _ => none
  | fuel + 1, st, parent, block =>
      match st.1.nodeToNum block with
      | some _ => some st
      | none =>
          ((blockSuccessors ir block).foldlM (fun st b => visitTree ir fuel st (some block) b)
            (st.1.setNumber block 0, Function.update st.2 block parent)).map fun st =>
              ((st.1.setNumber block (toInt st.1.postorder.length)).push block, st.2)

/-- `a` is `b`, or the call for `b` was made during the call for `a`. -/
def CallTree.Ancestor (tree : CallTree) (a b : ℕ) : Prop :=
  ReflTransGen (fun a b => tree b = some a) a b

/-! ## What the postorders have to be -/

/-- The postorder of `_visit`: it fits in its buffer, it lists the reachable blocks once
each and the entry last, the number of a block is its position, and an edge to a block with
a larger number leads to an ancestor. -/
structure PostorderRight (ir : Ir) (entry : ℕ) (s : VisitState) (tree : CallTree) : Prop where
  stored : PostorderStored s.postorder
  nodup : s.postorder.Nodup
  mem : ∀ b, b ∈ s.postorder ↔ Reachable (cfgEdge ir) entry b
  number : ∀ k b : ℕ, s.postorder[k]? = some b → dominatorsGetNumber s.nodeToNum b = some k
  last : ∃ l, s.postorder = l ++ [entry]
  ancestor : ∀ u v, Reachable (cfgEdge ir) entry u → cfgEdge ir u v → ∀ i j,
    dominatorsGetNumber s.nodeToNum u = some i → dominatorsGetNumber s.nodeToNum v = some j →
    i < j → tree.Ancestor v u

/-- Both traversals end and list the same blocks, and the numbers are right. -/
def PostordersRight (ir : Ir) (entry : ℕ) : Prop :=
  ∃ fuel₀, ∀ fuel ≥ fuel₀, ∃ s tree, visit ir fuel visitStart entry = some s ∧
    visitTree ir fuel (visitStart, fun _ => none) none entry = some (s, tree) ∧
    blockComputePostorder ir fuel entry = some s.postorder ∧ PostorderRight ir entry s tree

/-! ## The traversals agree -/

section Agree

variable {ir : Ir}

/-- What `pre_visit` knows of a state of `_visit`. -/
def VisitState.forget (s : VisitState) : PreVisitState :=
  ⟨fun b => (s.nodeToNum b).isSome, s.postorder⟩

/-- A fold that a map of the states turns into another one. -/
theorem foldlM_map_comm {S T A : Type*} {f : S → A → Option S} {g : T → A → Option T}
    {φ : S → T} (h : ∀ s a, (f s a).map φ = g (φ s) a) (as : List A) (s : S) :
    (as.foldlM f s).map φ = as.foldlM g (φ s) := by
  induction as generalizing s with
  | nil => rfl
  | cons a as ih =>
      rw [List.foldlM_cons, List.foldlM_cons, ← h s a]
      cases f s a with
      | none => rfl
      | some s' => exact ih s'

theorem forget_setNumber (s : VisitState) (block : ℕ) (n : ℤ) :
    (s.setNumber block n).forget =
      { s.forget with hashset := Function.update s.forget.hashset block true } := by
  unfold VisitState.forget VisitState.setNumber
  congr 1
  funext b
  by_cases hb : b = block
  · rw [hb]
    simp
  · simp [hb]

/-- **`pre_visit` is `_visit`** without the numbers. -/
theorem map_visit_forget (fuel : ℕ) (s : VisitState) (block : ℕ) :
    (visit ir fuel s block).map VisitState.forget = preVisit ir fuel s.forget block := by
  induction fuel generalizing s block with
  | zero => rfl
  | succ fuel ih =>
      unfold visit preVisit
      cases hnum : s.nodeToNum block with
      | some n =>
          have hin : s.forget.hashset block = true := by simp [VisitState.forget, hnum]
          rw [if_pos hin]
          rfl
      | none =>
          have hout : s.forget.hashset block = false := by simp [VisitState.forget, hnum]
          rw [hout, if_neg Bool.false_ne_true, ← forget_setNumber s block 0,
            ← foldlM_map_comm ih]
          show Option.map _ (Option.map _ _) = Option.map _ (Option.map _ _)
          rcases hfold : (blockSuccessors ir block).foldlM (visit ir fuel)
            (s.setNumber block 0) with _ | s₁
          · rfl
          · -- the block has been in the map since the call began
            obtain ⟨new, hspec, -⟩ := visit_foldlM (R := fun _ => True)
              (visit_spec (fun _ _ _ _ => trivial) fuel) _ (fun _ _ => trivial) hfold
            have hin : s₁.forget.hashset block = true := by
              have hvisited := hspec.visited (x := block)
                (by rw [setNumber_self]; exact Option.some_ne_none _)
              exact Option.isSome_iff_ne_none.mpr hvisited
            have hkept : Function.update s₁.forget.hashset block true = s₁.forget.hashset := by
              rw [← hin, Function.update_eq_self]
            have hlast := forget_setNumber s₁ block (toInt s₁.postorder.length)
            rw [hkept] at hlast
            exact congrArg (fun s : PreVisitState => some { s with
              dbuffer := s.dbuffer ++ [block] }) hlast

/-- Both traversals list the blocks in one order. -/
theorem blockComputePostorder_eq {fuel entry : ℕ} {s : VisitState}
    (hs : visit ir fuel visitStart entry = some s) :
    blockComputePostorder ir fuel entry = some s.postorder := by
  have hpre : (visit ir fuel visitStart entry).map VisitState.forget =
      preVisit ir fuel visitStart.forget entry := map_visit_forget _ _ _
  rw [hs] at hpre
  show (preVisit ir fuel visitStart.forget entry).map PreVisitState.dbuffer = _
  rw [← hpre]
  rfl

theorem blockComputePostorder_eq_some {fuel entry : ℕ} {postorder : List ℕ} :
    blockComputePostorder ir fuel entry = some postorder ↔
      ∃ s, visit ir fuel visitStart entry = some s ∧ s.postorder = postorder := by
  constructor
  · intro h
    obtain ⟨p, hp, rfl⟩ := Option.map_eq_some_iff.mp h
    have hpre : (visit ir fuel visitStart entry).map VisitState.forget = some p :=
      (map_visit_forget _ _ _).trans hp
    obtain ⟨s, hs, rfl⟩ := Option.map_eq_some_iff.mp hpre
    exact ⟨s, hs, rfl⟩
  · rintro ⟨s, hs, rfl⟩
    exact blockComputePostorder_eq hs

/-- `visitTree` is `_visit` with a record. -/
theorem map_visitTree_fst (fuel : ℕ) (st : VisitState × CallTree) (parent : Option ℕ)
    (block : ℕ) : (visitTree ir fuel st parent block).map Prod.fst = visit ir fuel st.1 block := by
  induction fuel generalizing st parent block with
  | zero => rfl
  | succ fuel ih =>
      unfold visitTree visit
      cases hnum : st.1.nodeToNum block with
      | some n => rfl
      | none =>
          have hfold := foldlM_map_comm (fun st b => ih st (some block) b)
            (blockSuccessors ir block) (st.1.setNumber block 0, Function.update st.2 block parent)
          dsimp only at hfold ⊢
          rw [← hfold, Option.map_map, Option.map_map]
          rfl

end Agree

/-! ## Ancestors -/

section Tree

variable {ir : Ir} {st st' : VisitState × CallTree} {parent : Option ℕ} {a b c : ℕ}

/-- The record of calls only grows. -/
def CallTree.Grows (tree tree' : CallTree) : Prop := ∀ a b, tree b = some a → tree' b = some a

theorem CallTree.Ancestor.mono {tree tree' : CallTree} (hgrows : tree.Grows tree')
    (h : tree.Ancestor a b) : tree'.Ancestor a b :=
  ReflTransGen.mono (fun a b => hgrows a b) _ _ h

/-- What holds before and after a call from the call for `parent`. -/
structure TreeInv (ir : Ir) (st : VisitState × CallTree) (parent : Option ℕ) : Prop where
  /-- A block is recorded when it is visited. -/
  known : ∀ b, st.2 b ≠ none → st.1.nodeToNum b ≠ none
  /-- The blocks visited but not yet listed are those whose calls go on. -/
  active : ∀ g, st.1.nodeToNum g ≠ none → g ∉ st.1.postorder →
    ∃ a, parent = some a ∧ st.2.Ancestor g a
  /-- An edge from a listed block leads to one listed before it or to an ancestor. -/
  listed : ∀ l₁ x l₂, st.1.postorder = l₁ ++ x :: l₂ → ∀ y, cfgEdge ir x y →
    y ∈ l₁ ++ [x] ∨ st.2.Ancestor y x

theorem treeInv_start (ir : Ir) : TreeInv ir (visitStart, fun _ => none) none where
  known := fun b hb => absurd rfl hb
  active := fun g hg => absurd rfl hg
  listed := by
    intro l₁ x l₂ hl
    cases l₁ <;> cases hl

/-- A call for a block that has not been visited begins. -/
theorem TreeInv.enter (h : TreeInv ir st parent) {block : ℕ}
    (hnone : st.1.nodeToNum block = none) :
    st.2.Grows (Function.update st.2 block parent) ∧
      TreeInv ir (st.1.setNumber block 0, Function.update st.2 block parent) (some block) := by
  have hgrows : st.2.Grows (Function.update st.2 block parent) := by
    intro a b hb
    have hne : b ≠ block := by
      rintro rfl
      exact h.known b (by rw [hb]; exact Option.some_ne_none _) hnone
    rw [Function.update_of_ne hne]
    exact hb
  refine ⟨hgrows, ?_, ?_, ?_⟩
  · intro b hb
    by_cases hbb : b = block
    · rw [hbb, setNumber_self]
      exact Option.some_ne_none _
    · rw [setNumber_of_ne hbb]
      apply h.known b
      replace hb : Function.update st.2 block parent b ≠ none := hb
      rwa [Function.update_of_ne hbb] at hb
  · intro g hg hlisted
    refine ⟨block, rfl, ?_⟩
    by_cases hgb : g = block
    · rw [hgb]
      exact .refl
    · rw [setNumber_of_ne hgb] at hg
      obtain ⟨a, rfl, hanc⟩ := h.active g hg hlisted
      exact (hanc.mono hgrows).tail (Function.update_self ..)
  · intro l₁ x l₂ hl y hxy
    rcases h.listed l₁ x l₂ hl y hxy with hy | hy
    · exact Or.inl hy
    · exact Or.inr (hy.mono hgrows)

/-- The call ends: its block is listed after everything it leads to that is not above it. -/
theorem TreeInv.leave {block : ℕ} {new : List ℕ} {s₁ : VisitState} {tree₁ : CallTree}
    (h : TreeInv ir st parent) (hgrows : st.2.Grows tree₁)
    (h₁ : TreeInv ir (s₁, tree₁) (some block))
    (hspec : VisitSpec ir (fun _ => True) st.1
      ((s₁.setNumber block (toInt s₁.postorder.length)).push block) new)
    (hsucc : ∀ y, cfgEdge ir block y → s₁.nodeToNum y ≠ none) :
    TreeInv ir ((s₁.setNumber block (toInt s₁.postorder.length)).push block, tree₁) parent := by
  refine ⟨?_, ?_, ?_⟩
  · intro b hb
    show (s₁.setNumber block _).nodeToNum b ≠ none
    by_cases hbb : b = block
    · rw [hbb, setNumber_self]
      exact Option.some_ne_none _
    · rw [setNumber_of_ne hbb]
      exact h₁.known b hb
  · intro g hg hlisted
    have hpost := hspec.postorder
    dsimp only at hg hlisted
    rw [hpost, List.mem_append, not_or] at hlisted
    rw [hspec.old g hlisted.2] at hg
    obtain ⟨a, hpar, hanc⟩ := h.active g hg hlisted.1
    exact ⟨a, hpar, hanc.mono hgrows⟩
  · intro l₁ x l₂ hl y hxy
    replace hl : s₁.postorder ++ [block] = l₁ ++ x :: l₂ := hl
    rcases List.eq_nil_or_concat l₂ with rfl | ⟨l, z, rfl⟩
    · obtain ⟨rfl, hx⟩ := List.append_inj' hl rfl
      obtain rfl := List.singleton_inj.mp hx
      by_cases hy : y ∈ s₁.postorder
      · exact Or.inl (List.mem_append_left _ hy)
      · obtain ⟨a, ha, hanc⟩ := h₁.active y (hsucc y hxy) hy
        exact Or.inr (Option.some.inj ha ▸ hanc)
    · rw [List.concat_eq_append, ← List.cons_append, ← List.append_assoc] at hl
      exact h₁.listed l₁ x l (List.append_inj' hl rfl).1 y hxy

/-- **A call keeps the invariant.** -/
theorem visitTree_inv (fuel : ℕ) : ∀ st st' parent block, TreeInv ir st parent →
    visitTree ir fuel st parent block = some st' →
    TreeInv ir st' parent ∧ st.2.Grows st'.2 := by
  induction fuel with
  | zero =>
      intro st st' parent block _ h
      cases h
  | succ fuel ih =>
      intro st st' parent block hinv h
      have hvisit : (visitTree ir (fuel + 1) st parent block).map Prod.fst =
          visit ir (fuel + 1) st.1 block := map_visitTree_fst _ _ _ _
      rw [h] at hvisit
      obtain ⟨new, hcall⟩ := visit_spec (R := fun _ => True) (fun _ _ _ _ => trivial) (fuel + 1)
        st.1 st'.1 block trivial hvisit.symm
      unfold visitTree at h
      cases hnum : st.1.nodeToNum block with
      | some n =>
          rw [hnum] at h
          obtain rfl := Option.some.inj h
          exact ⟨hinv, fun _ _ hab => hab⟩
      | none =>
          rw [hnum] at h
          obtain ⟨⟨s₁, tree₁⟩, hfold, rfl⟩ := Option.map_eq_some_iff.mp h
          obtain ⟨hgrows, henter⟩ := hinv.enter hnum
          -- the calls for the successors, one after the other
          have hloop : ∀ (blocks : List ℕ) st₀, TreeInv ir st₀ (some block) → ∀ st₁,
              blocks.foldlM (fun st b => visitTree ir fuel st (some block) b) st₀ = some st₁ →
              TreeInv ir st₁ (some block) ∧ st₀.2.Grows st₁.2 := by
            intro blocks
            induction blocks with
            | nil =>
                intro st₀ h₀ st₁ hst₁
                obtain rfl := Option.some.inj hst₁
                exact ⟨h₀, fun _ _ hab => hab⟩
            | cons b blocks ihb =>
                intro st₀ h₀ st₁ hst₁
                obtain ⟨st₂, hst₂, hrest⟩ := Option.bind_eq_some_iff.mp hst₁
                obtain ⟨h₂, hgrows₂⟩ := ih st₀ st₂ (some block) b h₀ hst₂
                obtain ⟨h₁, hgrows₁⟩ := ihb st₂ h₂ st₁ hrest
                exact ⟨h₁, fun x y hxy => hgrows₁ x y (hgrows₂ x y hxy)⟩
          obtain ⟨h₁, hgrows₁⟩ := hloop _ _ henter _ hfold
          have hgrows' : st.2.Grows tree₁ := fun x y hxy => hgrows₁ x y (hgrows x y hxy)
          refine ⟨hinv.leave hgrows' h₁ hcall.spec ?_, hgrows'⟩
          -- every successor has been visited
          have hcalls : ∀ st b, (visitTree ir fuel st (some block) b).map Prod.fst =
              visit ir fuel st.1 b := fun st b => map_visitTree_fst _ _ _ _
          have hfst := foldlM_map_comm hcalls (blockSuccessors ir block)
            (st.1.setNumber block 0, Function.update st.2 block parent)
          rw [hfold] at hfst
          obtain ⟨-, -, hvisited⟩ := visit_foldlM (R := fun _ => True)
            (visit_spec (fun _ _ _ _ => trivial) fuel) _ (fun _ _ => trivial) hfst.symm
          exact hvisited

end Tree

/-! ## The postorders -/

section Right

variable {ir : Ir} {entry : ℕ}

/-- An edge to a block with a larger number leads to an ancestor. -/
theorem ancestor_of_lt {fuel : ℕ} {s : VisitState} {tree : CallTree}
    (htree : visitTree ir fuel (visitStart, fun _ => none) none entry = some (s, tree))
    (hpost : IsPostorder ir entry s) {u v i j : ℕ} (huv : cfgEdge ir u v)
    (hi : s.postorder[i]? = some u) (hj : s.postorder[j]? = some v) (hij : i < j) :
    tree.Ancestor v u := by
  obtain ⟨hinv, -⟩ := visitTree_inv fuel _ _ none entry (treeInv_start ir) htree
  obtain ⟨hlt, hu⟩ := List.getElem?_eq_some_iff.mp hi
  have hsplit : s.postorder = s.postorder.take i ++ u :: s.postorder.drop (i + 1) := by
    rw [← hu, List.getElem_cons_drop, List.take_append_drop]
  refine (hinv.listed _ u _ hsplit v huv).resolve_left ?_
  -- the blocks listed up to `u` have numbers up to `i`
  intro hv
  have hprefix : v ∈ s.postorder.take (i + 1) := by
    rwa [List.take_add_one, hi]
  obtain ⟨k, hk, hkv⟩ := List.mem_take_iff_getElem.mp hprefix
  have hkj : s.postorder[k]? = some v := by
    rw [← hkv]
    exact List.getElem?_eq_getElem _
  have hlen := (List.getElem?_eq_some_iff.mp hkj).1
  have hsame := (List.getElem?_inj hlen hpost.nodup).mp (hkj.trans hj.symm)
  omega

/-- **The postorders are right if and only if they fit in their buffers.**  On a finite
graph, both traversals end and list the reachable blocks in the same order, the numbers are
the positions, and an edge to a block with a larger number leads to an ancestor, if and only
if at most 250 blocks are reachable. -/
theorem postorders_right_iff (ir : Ir) (entry : ℕ)
    (hfinite : ∀ b, Reachable (cfgEdge ir) entry b → b < ir.blockCount) :
    PostordersRight ir entry ↔ {b | Reachable (cfgEdge ir) entry b}.ncard ≤ 250 := by
  constructor
  · rintro ⟨fuel₀, hall⟩
    obtain ⟨s, tree, hs, -, -, hright⟩ := hall fuel₀ le_rfl
    rw [(visit_postorder hs).ncard_reachable]
    exact (postorderStored_iff _).mp hright.stored
  · intro hcount
    refine ⟨ir.blockCount + 1, fun fuel hfuel => ?_⟩
    obtain ⟨s, hs⟩ := visit_entry_succeeds hfinite hfuel
    have hpost := visit_postorder hs
    rw [hpost.ncard_reachable] at hcount
    have hfst : (visitTree ir fuel (visitStart, fun _ => none) none entry).map Prod.fst =
        some s := (map_visitTree_fst _ _ _ _).trans hs
    obtain ⟨⟨s', tree⟩, htree, rfl⟩ := Option.map_eq_some_iff.mp hfst
    refine ⟨s', tree, hs, htree, blockComputePostorder_eq hs, (postorderStored_iff _).mpr hcount,
      hpost.nodup, hpost.mem, ?_, hpost.entry, ?_⟩
    · exact fun k b hk => hpost.getNumber (by omega) hk
    · intro u v hu huv i j hi hj hij
      obtain ⟨i', hi'⟩ := hpost.exists_number hu
      obtain ⟨j', hj'⟩ := hpost.exists_number (hu.step huv)
      have hii := hi.symm.trans (hpost.getNumber (by omega) hi')
      have hjj := hj.symm.trans (hpost.getNumber (by omega) hj')
      rw [Option.some.injEq] at hii hjj
      exact ancestor_of_lt htree hpost huv hi' hj' (by omega)

/-- The theorem at `joinLoop`. -/
theorem postorders_right_iff_joinLoop : PostordersRight joinLoop 0 ↔
    {b | Reachable (cfgEdge joinLoop) 0 b}.ncard ≤ 250 :=
  postorders_right_iff joinLoop 0 fun _ hb => reachable_joinLoop.mp hb

/-- The last block of the postorder of a chain of 251 blocks is stored past the end of the
buffer. -/
theorem postorders_not_right : ¬ PostordersRight (chainIr 251) 0 := by
  rintro ⟨fuel₀, hall⟩
  obtain ⟨s, tree, hs, -, -, hright⟩ := hall fuel₀ le_rfl
  have hle := (postorderStored_iff _).mp hright.stored
  rw [← (visit_postorder hs).ncard_reachable, ncard_reachable_chain (by decide)] at hle
  omega

end Right
