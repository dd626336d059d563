/-
# The postorder of `_visit`

A call of `_visit` appends the blocks that it reaches through blocks not visited before,
each once, and every successor of an appended block is visited in the end (`VisitSpec`).
So from the start the postorder lists the blocks reachable from the entry, the entry last
(`visit_postorder`), and the visit succeeds when it is given enough steps.
-/
import MCompiler.Dominators
import MCompiler.Lib.Dominance
import MCompiler.Lib.Loops
import Mathlib.Order.Interval.Finset.Nat

open FlowGraph

/-- The edges of the control flow graph. -/
def cfgEdge (ir : Ir) (a b : ℕ) : Prop := b ∈ blockSuccessors ir a

/-- A call that leads from `s` to `s'` has appended `new`; `R` holds of the blocks that
can be reached. -/
structure VisitSpec (ir : Ir) (R : ℕ → Prop) (s s' : VisitState) (new : List ℕ) : Prop where
  postorder : s'.postorder = s.postorder ++ new
  nodup : new.Nodup
  fresh : ∀ x ∈ new, s.nodeToNum x = none
  old : ∀ x, x ∉ new → s'.nodeToNum x = s.nodeToNum x
  number : ∀ k x, new[k]? = some x →
    s'.nodeToNum x = some (toInt ((s.postorder.length + k : ℕ) : ℤ))
  closed : ∀ x ∈ new, ∀ y, cfgEdge ir x y → s'.nodeToNum y ≠ none
  inside : ∀ x ∈ new, R x

variable {ir : Ir} {R : ℕ → Prop} {s s' s₁ s₂ : VisitState} {new new₁ new₂ : List ℕ}

@[simp] theorem setNumber_self (s : VisitState) (block : ℕ) (n : ℤ) :
    (s.setNumber block n).nodeToNum block = some n := Function.update_self ..

theorem setNumber_of_ne {x block : ℕ} (hx : x ≠ block) (s : VisitState) (n : ℤ) :
    (s.setNumber block n).nodeToNum x = s.nodeToNum x := Function.update_of_ne hx ..

theorem VisitSpec.refl (s : VisitState) : VisitSpec ir R s s [] where
  postorder := (List.append_nil _).symm
  nodup := List.nodup_nil
  fresh := fun x hx => by cases hx
  old := fun x _ => rfl
  number := fun k x hx => by cases hx
  closed := fun x hx => by cases hx
  inside := fun x hx => by cases hx

/-- What is appended is visited. -/
theorem VisitSpec.visited_new (h : VisitSpec ir R s s' new) {x : ℕ} (hx : x ∈ new) :
    s'.nodeToNum x ≠ none := by
  obtain ⟨k, hk⟩ := List.mem_iff_getElem?.mp hx
  rw [h.number k x hk]
  exact Option.some_ne_none _

/-- What was visited stays visited. -/
theorem VisitSpec.visited (h : VisitSpec ir R s s' new) {x : ℕ} (hx : s.nodeToNum x ≠ none) :
    s'.nodeToNum x ≠ none := by
  by_cases hnew : x ∈ new
  · exact h.visited_new hnew
  · rwa [h.old x hnew]

theorem VisitSpec.trans (h₁ : VisitSpec ir R s s₁ new₁) (h₂ : VisitSpec ir R s₁ s₂ new₂) :
    VisitSpec ir R s s₂ (new₁ ++ new₂) := by
  have hdisjoint : ∀ x ∈ new₁, x ∉ new₂ := fun x hx hx' =>
    h₁.visited_new hx (h₂.fresh x hx')
  refine ⟨?_, ?_, ?_, ?_, ?_, ?_, ?_⟩
  · rw [h₂.postorder, h₁.postorder, List.append_assoc]
  · exact h₁.nodup.append h₂.nodup hdisjoint
  · intro x hx
    rcases List.mem_append.mp hx with hx | hx
    · exact h₁.fresh x hx
    · have hnot : x ∉ new₁ := fun h => hdisjoint x h hx
      rw [← h₁.old x hnot]
      exact h₂.fresh x hx
  · intro x hx
    rw [List.mem_append, not_or] at hx
    rw [h₂.old x hx.2, h₁.old x hx.1]
  · intro k x hx
    rcases Nat.lt_or_ge k new₁.length with hk | hk
    · rw [List.getElem?_append_left hk] at hx
      rw [h₂.old x (hdisjoint x (List.mem_of_getElem? hx))]
      exact h₁.number k x hx
    · rw [List.getElem?_append_right hk] at hx
      rw [h₂.number _ x hx, h₁.postorder, List.length_append]
      congr 3
      omega
  · intro x hx y hxy
    rcases List.mem_append.mp hx with hx | hx
    · exact h₂.visited (h₁.closed x hx y hxy)
    · exact h₂.closed x hx y hxy
  · intro x hx
    rcases List.mem_append.mp hx with hx | hx
    · exact h₁.inside x hx
    · exact h₂.inside x hx

/-- What a call for `block` guarantees. -/
structure VisitCall (ir : Ir) (R : ℕ → Prop) (s s' : VisitState) (block : ℕ)
    (new : List ℕ) : Prop where
  spec : VisitSpec ir R s s' new
  visited : s'.nodeToNum block ≠ none
  last : s.nodeToNum block = none → ∃ l, new = l ++ [block]

/-- The calls for a list of blocks. -/
theorem visit_foldlM {fuel : ℕ}
    (hcall : ∀ s s' block, R block → visit ir fuel s block = some s' →
      ∃ new, VisitCall ir R s s' block new)
    (blocks : List ℕ) (hR : ∀ b ∈ blocks, R b)
    (h : blocks.foldlM (visit ir fuel) s = some s') :
    ∃ new, VisitSpec ir R s s' new ∧ ∀ b ∈ blocks, s'.nodeToNum b ≠ none := by
  induction blocks generalizing s with
  | nil =>
      obtain rfl := Option.some.inj h
      exact ⟨[], .refl s, fun b hb => by cases hb⟩
  | cons b blocks ih =>
      rw [List.foldlM_cons] at h
      obtain ⟨s₁, hs₁, hrest⟩ := Option.bind_eq_some_iff.mp h
      obtain ⟨new₁, h₁⟩ := hcall s s₁ b (hR b List.mem_cons_self) hs₁
      obtain ⟨new₂, h₂, hvisited⟩ := ih (fun b hb => hR b (List.mem_cons_of_mem _ hb)) hrest
      refine ⟨_, h₁.spec.trans h₂, ?_⟩
      intro b' hb'
      rcases List.mem_cons.mp hb' with rfl | hb'
      · exact h₂.visited h₁.visited
      · exact hvisited b' hb'

/-- A block is appended after what its successors have appended. -/
theorem VisitSpec.finish {block : ℕ} (hnone : s.nodeToNum block = none) (hR : R block)
    (h : VisitSpec ir R (s.setNumber block 0) s₁ new)
    (hsucc : ∀ y, cfgEdge ir block y → s₁.nodeToNum y ≠ none) :
    VisitSpec ir R s ((s₁.setNumber block (toInt s₁.postorder.length)).push block)
      (new ++ [block]) := by
  have hne : ∀ x ∈ new, x ≠ block := by
    rintro x hx rfl
    have hfresh := h.fresh x hx
    rw [setNumber_self] at hfresh
    cases hfresh
  have hpost : s₁.postorder = s.postorder ++ new := h.postorder
  have hkept : ∀ y, s₁.nodeToNum y ≠ none →
      (s₁.setNumber block (toInt s₁.postorder.length)).nodeToNum y ≠ none := by
    intro y hy
    by_cases hyb : y = block
    · rw [hyb, setNumber_self]
      exact Option.some_ne_none _
    · rwa [setNumber_of_ne hyb]
  refine ⟨?_, ?_, ?_, ?_, ?_, ?_, ?_⟩
  · show s₁.postorder ++ [block] = _
    rw [hpost, List.append_assoc]
  · refine h.nodup.append (List.nodup_singleton _) ?_
    intro x hx hx'
    exact hne x hx (List.mem_singleton.mp hx')
  · intro x hx
    rcases List.mem_append.mp hx with hx | hx
    · have hfresh := h.fresh x hx
      rwa [setNumber_of_ne (hne x hx)] at hfresh
    · rwa [List.mem_singleton.mp hx]
  · intro x hx
    rw [List.mem_append, List.mem_singleton, not_or] at hx
    show (s₁.setNumber block _).nodeToNum x = _
    rw [setNumber_of_ne hx.2, h.old x hx.1, setNumber_of_ne hx.2]
  · intro k x hx
    show (s₁.setNumber block _).nodeToNum x = _
    rcases Nat.lt_or_ge k new.length with hk | hk
    · rw [List.getElem?_append_left hk] at hx
      rw [setNumber_of_ne (hne x (List.mem_of_getElem? hx))]
      exact h.number k x hx
    · rw [List.getElem?_append_right hk] at hx
      obtain ⟨hk0, rfl⟩ := List.getElem?_eq_some_iff.mp hx
      have hk' : k = new.length := by
        rw [List.length_singleton] at hk0
        omega
      subst hk'
      simp only [Nat.sub_self, List.getElem_cons_zero]
      rw [setNumber_self, hpost, List.length_append]
  · intro x hx y hxy
    apply hkept
    rcases List.mem_append.mp hx with hx | hx
    · exact h.closed x hx y hxy
    · rw [List.mem_singleton.mp hx] at hxy
      exact hsucc y hxy
  · intro x hx
    rcases List.mem_append.mp hx with hx | hx
    · exact h.inside x hx
    · rwa [List.mem_singleton.mp hx]

/-- **A call of `_visit`.** -/
theorem visit_spec (hR : ∀ x y, R x → cfgEdge ir x y → R y) (fuel : ℕ) :
    ∀ s s' block, R block → visit ir fuel s block = some s' →
      ∃ new, VisitCall ir R s s' block new := by
  induction fuel with
  | zero => intro s s' block _ h; cases h
  | succ fuel ih =>
      intro s s' block hblock h
      unfold visit at h
      cases hnum : s.nodeToNum block with
      | some n =>
          rw [hnum] at h
          obtain rfl := Option.some.inj h
          exact ⟨[], .refl s, by rw [hnum]; exact Option.some_ne_none _,
            fun hnone => by rw [hnum] at hnone; cases hnone⟩
      | none =>
          rw [hnum] at h
          obtain ⟨s₁, hs₁, rfl⟩ := Option.map_eq_some_iff.mp h
          obtain ⟨new, hspec, hsucc⟩ := visit_foldlM ih (blockSuccessors ir block)
            (fun y hy => hR block y hblock hy) hs₁
          have hfinish := VisitSpec.finish hnum hblock hspec hsucc
          exact ⟨new ++ [block], hfinish,
            hfinish.visited_new (List.mem_append_right _ (List.mem_singleton.mpr rfl)),
            fun _ => ⟨new, rfl⟩⟩

/-! ## Termination -/

/-- How many of the first `n` blocks are not visited. -/
def unvisited (n : ℕ) (s : VisitState) : ℕ :=
  ((Finset.range n).filter (fun x => s.nodeToNum x = none)).card

theorem VisitSpec.unvisited_le (h : VisitSpec ir R s s' new) (n : ℕ) :
    unvisited n s' ≤ unvisited n s := by
  refine Finset.card_le_card ?_
  intro x hx
  obtain ⟨hn, hnone⟩ := Finset.mem_filter.mp hx
  refine Finset.mem_filter.mpr ⟨hn, ?_⟩
  by_contra hsome
  exact h.visited hsome hnone

theorem unvisited_setNumber_lt {n block : ℕ} (hn : block < n)
    (hnone : s.nodeToNum block = none) (k : ℤ) :
    unvisited n (s.setNumber block k) < unvisited n s := by
  refine Finset.card_lt_card ⟨?_, ?_⟩
  · intro x hx
    obtain ⟨hxn, hx⟩ := Finset.mem_filter.mp hx
    refine Finset.mem_filter.mpr ⟨hxn, ?_⟩
    by_cases hxb : x = block
    · rwa [hxb]
    · rwa [setNumber_of_ne hxb] at hx
  · intro hsub
    have hmem := hsub (Finset.mem_filter.mpr ⟨Finset.mem_range.mpr hn, hnone⟩)
    have hx := (Finset.mem_filter.mp hmem).2
    rw [setNumber_self] at hx
    cases hx

/-- A call succeeds that may take more steps than there are blocks left. -/
theorem visit_succeeds {n : ℕ} (hR : ∀ x y, R x → cfgEdge ir x y → R y)
    (hn : ∀ x, R x → x < n) (fuel : ℕ) :
    ∀ s block, R block → unvisited n s < fuel → ∃ s', visit ir fuel s block = some s' := by
  induction fuel with
  | zero => intro s block _ h; omega
  | succ fuel ih =>
      intro s block hblock hlt
      unfold visit
      cases hnum : s.nodeToNum block with
      | some k => exact ⟨s, rfl⟩
      | none =>
          have hmark := unvisited_setNumber_lt (hn block hblock) hnum 0
          -- the calls for the successors, from any state with as few blocks left
          have hloop : ∀ (blocks : List ℕ), (∀ b ∈ blocks, R b) → ∀ s₀, unvisited n s₀ < fuel →
              ∃ s', blocks.foldlM (visit ir fuel) s₀ = some s' := by
            intro blocks
            induction blocks with
            | nil => exact fun _ s₀ _ => ⟨s₀, rfl⟩
            | cons b blocks ihb =>
                intro hmem s₀ hs₀
                obtain ⟨s₁, hs₁⟩ := ih s₀ b (hmem b List.mem_cons_self) hs₀
                obtain ⟨new, hcall⟩ := visit_spec hR fuel s₀ s₁ b (hmem b List.mem_cons_self) hs₁
                have hle := hcall.spec.unvisited_le n
                obtain ⟨s₂, hs₂⟩ := ihb (fun b hb => hmem b (List.mem_cons_of_mem _ hb)) s₁
                  (by omega)
                exact ⟨s₂, by rw [List.foldlM_cons, hs₁]; exact hs₂⟩
          obtain ⟨s₁, hs₁⟩ := hloop (blockSuccessors ir block)
            (fun y hy => hR block y hblock hy) _ (Nat.lt_of_lt_of_le hmark (by omega))
          exact ⟨_, by show Option.map _ _ = _; rw [hs₁]; rfl⟩

/-- More steps do not change the result. -/
theorem visit_mono {fuel fuel' : ℕ} (hle : fuel ≤ fuel') (s s' : VisitState) (block : ℕ)
    (h : visit ir fuel s block = some s') : visit ir fuel' s block = some s' := by
  induction fuel generalizing fuel' s s' block with
  | zero => cases h
  | succ fuel ih =>
      obtain ⟨k, rfl⟩ := Nat.exists_eq_add_of_le' (Nat.le_of_add_left_le hle)
      unfold visit at h ⊢
      cases hnum : s.nodeToNum block with
      | some n => rwa [hnum] at h
      | none =>
          rw [hnum] at h
          obtain ⟨s₁, hs₁, rfl⟩ := Option.map_eq_some_iff.mp h
          have hfold := Loop.foldlM_mono (fun s b s' => ih (Nat.le_of_succ_le_succ hle) s s' b) _ hs₁
          exact Option.map_eq_some_iff.mpr ⟨s₁, hfold, rfl⟩

/-! ## The visit from the entry -/

/-- The postorder of a graph with the entry `entry`, and the numbers of its blocks. -/
structure IsPostorder (ir : Ir) (entry : ℕ) (s : VisitState) : Prop where
  nodup : s.postorder.Nodup
  mem : ∀ b, b ∈ s.postorder ↔ Reachable (cfgEdge ir) entry b
  number : ∀ (k b : ℕ), s.postorder[k]? = some b → s.nodeToNum b = some (toInt (k : ℤ))
  none : ∀ b, b ∉ s.postorder → s.nodeToNum b = none
  entry : ∃ l, s.postorder = l ++ [entry]

/-- **The postorder.** -/
theorem visit_postorder {entry fuel : ℕ} (h : visit ir fuel visitStart entry = some s) :
    IsPostorder ir entry s := by
  obtain ⟨new, hspec, -, hlast⟩ := visit_spec (R := Reachable (cfgEdge ir) entry)
    (fun x y hx hxy => hx.step hxy) fuel visitStart s entry .root h
  obtain ⟨l, rfl⟩ := hlast rfl
  have hpost : s.postorder = l ++ [entry] := hspec.postorder
  refine ⟨hpost ▸ hspec.nodup, ?_, ?_, ?_, l, hpost⟩
  · intro b
    rw [hpost]
    refine ⟨hspec.inside b, ?_⟩
    rintro ⟨p, hp⟩
    -- every node of a walk has been appended
    induction hp with
    | root => simp
    | step _ hE ih =>
        by_contra hnot
        exact hspec.closed _ ih _ hE (hspec.old _ hnot)
  · intro k b hk
    rw [hpost] at hk
    rw [hspec.number k b hk]
    show some (toInt ((0 + k : ℕ) : ℤ)) = _
    rw [Nat.zero_add]
  · intro b hb
    rw [hpost] at hb
    exact hspec.old b hb

/-- The visit from the entry succeeds. -/
theorem visit_entry_succeeds {entry n fuel : ℕ}
    (hn : ∀ b, Reachable (cfgEdge ir) entry b → b < n) (hfuel : n < fuel) :
    ∃ s, visit ir fuel visitStart entry = some s := by
  refine visit_succeeds (fun x y hx hxy => hx.step hxy) hn fuel visitStart entry .root ?_
  have hcard : unvisited n visitStart ≤ n := by
    refine (Finset.card_filter_le _ _).trans ?_
    rw [Finset.card_range]
  omega

/-! ## Where a block was called from -/

/-- Every block of the list is a successor of `block` or of a block later in the list. -/
def CalledLater (ir : Ir) (block : ℕ) (l : List ℕ) : Prop :=
  ∀ l₁ x l₂, l = l₁ ++ x :: l₂ → cfgEdge ir block x ∨ ∃ a ∈ l₂, cfgEdge ir a x

theorem CalledLater.append {block : ℕ} {l l' : List ℕ} (h : CalledLater ir block l)
    (h' : CalledLater ir block l') : CalledLater ir block (l ++ l') := by
  intro l₁ x l₂ heq
  rcases List.append_eq_append_iff.mp heq with ⟨as, rfl, hl'⟩ | ⟨bs, hl, hx⟩
  · exact h' as x l₂ hl'
  · cases bs with
    | nil =>
        rw [List.nil_append] at hx
        exact h' [] x l₂ hx.symm
    | cons y bs =>
        obtain ⟨rfl, rfl⟩ := List.cons_eq_cons.mp hx
        rcases h l₁ x bs hl with hE | ⟨a, ha, hE⟩
        · exact Or.inl hE
        · exact Or.inr ⟨a, List.mem_append_left _ ha, hE⟩

/-- A call lists its block after what it was called for. -/
theorem visit_called (fuel : ℕ) : ∀ s s' block, visit ir fuel s block = some s' →
    s'.postorder = s.postorder ∨
      ∃ l, s'.postorder = s.postorder ++ (l ++ [block]) ∧ CalledLater ir block l := by
  induction fuel with
  | zero =>
      intro s s' block h
      cases h
  | succ fuel ih =>
      intro s s' block h
      unfold visit at h
      cases hnum : s.nodeToNum block with
      | some n =>
          rw [hnum] at h
          obtain rfl := Option.some.inj h
          exact Or.inl rfl
      | none =>
          rw [hnum] at h
          obtain ⟨s₁, hs₁, rfl⟩ := Option.map_eq_some_iff.mp h
          -- the calls for some of the successors
          have hloop : ∀ blocks : List ℕ, (∀ b ∈ blocks, cfgEdge ir block b) → ∀ s₀,
              blocks.foldlM (visit ir fuel) s₀ = some s₁ →
              ∃ l, s₁.postorder = s₀.postorder ++ l ∧ CalledLater ir block l := by
            intro blocks
            induction blocks with
            | nil =>
                intro _ s₀ hs₀
                obtain rfl := Option.some.inj hs₀
                refine ⟨[], (List.append_nil _).symm, ?_⟩
                intro l₁ x l₂ heq
                simp at heq
            | cons b blocks ihb =>
                intro hedge s₀ hs₀
                obtain ⟨s₂, hs₂, hrest⟩ := Option.bind_eq_some_iff.mp hs₀
                obtain ⟨l, hl, hcalled⟩ := ihb (fun b hb => hedge b (List.mem_cons_of_mem _ hb)) s₂
                  hrest
                rcases ih s₀ s₂ b hs₂ with hsame | ⟨l', hl', hcalled'⟩
                · exact ⟨l, by rw [hl, hsame], hcalled⟩
                · refine ⟨(l' ++ [b]) ++ l, by rw [hl, hl', List.append_assoc], ?_⟩
                  apply CalledLater.append _ hcalled
                  intro l₁ x l₂ heq
                  rcases List.eq_nil_or_concat l₂ with rfl | ⟨l₃, z, rfl⟩
                  · obtain ⟨-, hx⟩ := List.append_inj' heq rfl
                    obtain rfl := List.singleton_inj.mp hx
                    exact Or.inl (hedge b List.mem_cons_self)
                  · rw [List.concat_eq_append, ← List.cons_append, ← List.append_assoc] at heq
                    obtain ⟨hl'', hz⟩ := List.append_inj' heq rfl
                    obtain rfl := List.singleton_inj.mp hz
                    right
                    rcases hcalled' l₁ x l₃ hl'' with hE | ⟨a, ha, hE⟩
                    · exact ⟨b, by simp, hE⟩
                    · exact ⟨a, by simp [ha], hE⟩
          obtain ⟨l, hl, hcalled⟩ := hloop _ (fun _ hb => hb) _ hs₁
          right
          refine ⟨l, ?_, hcalled⟩
          show s₁.postorder ++ [block] = _
          rw [hl, List.append_assoc]
          rfl

/-- A block other than the entry has a predecessor that is listed later. -/
theorem exists_later_predecessor {entry fuel j b : ℕ}
    (h : visit ir fuel visitStart entry = some s) (hj : s.postorder[j]? = some b)
    (hb : b ≠ entry) : ∃ i a : ℕ, j < i ∧ s.postorder[i]? = some a ∧ cfgEdge ir a b := by
  obtain ⟨l, hl⟩ := (visit_postorder h).entry
  obtain ⟨l', hl', hcalled⟩ : ∃ l', s.postorder = l' ++ [entry] ∧ CalledLater ir entry l' := by
    rcases visit_called fuel visitStart s entry h with hsame | ⟨l', hl', hcalled⟩
    · rw [hl] at hsame
      exact absurd hsame (by simp [visitStart])
    · exact ⟨l', hl', hcalled⟩
  have hlt : j < l'.length := by
    by_contra hge
    rw [hl', List.getElem?_append_right (Nat.le_of_not_lt hge)] at hj
    exact hb (List.mem_singleton.mp (List.mem_of_getElem? hj))
  rw [hl', List.getElem?_append_left hlt] at hj
  obtain ⟨-, rfl⟩ := List.getElem?_eq_some_iff.mp hj
  have hsplit : l' = l'.take j ++ l'[j] :: l'.drop (j + 1) := by
    rw [List.getElem_cons_drop, List.take_append_drop]
  rcases hcalled _ _ _ hsplit with hE | ⟨a, ha, hE⟩
  · refine ⟨l'.length, entry, hlt, ?_, hE⟩
    rw [hl', List.getElem?_append_right (Nat.le_refl _), Nat.sub_self]
    rfl
  · obtain ⟨k, hk⟩ := List.mem_iff_getElem?.mp ha
    rw [List.getElem?_drop] at hk
    refine ⟨j + 1 + k, a, by omega, ?_, hE⟩
    have hklt := (List.getElem?_eq_some_iff.mp hk).1
    rw [hl', List.getElem?_append_left hklt, hk]
