/-
# Use lists that agree with the operands

`UseLists` : the use list of a value holds the slots that have the value, each once.  The
functions that rewrite operands keep this, and change nothing but the operands
(`UsesOnly`): `valueReplaceAllUses_spec`, `instPhiInsertValue_spec`.
-/
import MCompiler.Ir
import Mathlib.Data.List.Nodup
import Mathlib.Tactic.Common

/-- The use lists agree with the operands. -/
structure UseLists (ir : Ir) : Prop where
  mem : ∀ v u, u ∈ ir.uses v ↔ ir.operand u = some v
  nodup : ∀ v, (ir.uses v).Nodup

/-- Only operands and use lists may differ. -/
structure UsesOnly (ir ir' : Ir) : Prop where
  insts : ∀ i, ir'.insts i = { ir.insts i with uses := (ir'.insts i).uses }
  blocks : ir'.blocks = ir.blocks
  consts : ir'.consts = ir.consts
  instCount : ir'.instCount = ir.instCount
  blockCount : ir'.blockCount = ir.blockCount
  constCount : ir'.constCount = ir.constCount

/-- The value has been created. -/
def Ir.HasValue (ir : Ir) : Value → Prop
  | .inst i => i < ir.instCount
  | .const c => c < ir.constCount
  | .block b => b < ir.blockCount

instance (ir : Ir) (v : Value) : Decidable (ir.HasValue v) := by
  cases v <;> exact Nat.decLt _ _

/-- The slot `u`: whether it exists, and its value. -/
def Ir.slot (ir : Ir) (u : Use) : Option (Option Value) := (ir.insts u.inst).uses[u.slot]?

theorem Ir.operand_eq (ir : Ir) (u : Use) : ir.operand u = (ir.slot u).join := rfl

theorem Ir.operand_eq_some {ir : Ir} {u : Use} {v : Value} :
    ir.operand u = some v ↔ ir.slot u = some (some v) := Option.join_eq_some_iff

section UsesOnly

variable {ir ir₁ ir₂ : Ir}

theorem UsesOnly.refl (ir : Ir) : UsesOnly ir ir := ⟨fun _ => rfl, rfl, rfl, rfl, rfl, rfl⟩

theorem UsesOnly.trans (h₁ : UsesOnly ir ir₁) (h₂ : UsesOnly ir₁ ir₂) : UsesOnly ir ir₂ where
  insts i := by rw [h₂.insts, h₁.insts]
  blocks := h₂.blocks.trans h₁.blocks
  consts := h₂.consts.trans h₁.consts
  instCount := h₂.instCount.trans h₁.instCount
  blockCount := h₂.blockCount.trans h₁.blockCount
  constCount := h₂.constCount.trans h₁.constCount

theorem insts_writeUse (ir : Ir) (u : Use) (v : Value) (i : ℕ) :
    (ir.writeUse u v).insts i = if i = u.inst
      then { ir.insts i with uses := (ir.insts i).uses.set u.slot (some v) } else ir.insts i := by
  show Function.update ir.insts u.inst _ i = _
  by_cases hi : i = u.inst
  · subst hi
    rw [Function.update_self, if_pos rfl]
  · rw [Function.update_of_ne hi, if_neg hi]

theorem usesOnly_writeUse (ir : Ir) (u : Use) (v : Value) : UsesOnly ir (ir.writeUse u v) := by
  refine ⟨fun i => ?_, rfl, rfl, rfl, rfl, rfl⟩
  rw [insts_writeUse]
  split <;> rfl

theorem usesOnly_addUse (ir : Ir) (u : Use) (v : Value) : UsesOnly ir (ir.addUse v u) :=
  ⟨fun _ => rfl, rfl, rfl, rfl, rfl, rfl⟩

theorem usesOnly_deattachUse (ir : Ir) (u : Use) (v : Value) : UsesOnly ir (ir.deattachUse v u) :=
  ⟨fun _ => rfl, rfl, rfl, rfl, rfl, rfl⟩

theorem slot_writeUse (ir : Ir) (u u' : Use) (v : Value) (hu : ir.slot u ≠ none) :
    (ir.writeUse u v).slot u' = if u' = u then some (some v) else ir.slot u' := by
  obtain ⟨i, k⟩ := u
  obtain ⟨i', k'⟩ := u'
  have hk : k < (ir.insts i).uses.length := by
    by_contra hk
    exact hu (List.getElem?_eq_none (Nat.le_of_not_lt hk))
  unfold Ir.slot
  dsimp only
  rw [insts_writeUse]
  dsimp only
  by_cases hi : i' = i
  · subst hi
    rw [if_pos rfl, List.getElem?_set]
    by_cases hkk : k = k'
    · subst hkk
      simp [hk]
    · rw [if_neg hkk, if_neg (by simp [Ne.symm hkk])]
  · rw [if_neg hi, if_neg (by simp [hi])]

end UsesOnly

/-! ## Setting a slot -/

section SetUse

variable {ir : Ir} {u : Use} {v : Value}

/-- A slot that is not set gets a value. -/
theorem UseLists.setUse (h : UseLists ir) (hu : ir.slot u = some none) :
    UseLists ((ir.addUse v u).writeUse u v) := by
  have hslot : ∀ u', ((ir.addUse v u).writeUse u v).slot u' =
      if u' = u then some (some v) else ir.slot u' := fun u' =>
    slot_writeUse (ir.addUse v u) u u' v (by
      show ir.slot u ≠ none
      rw [hu]
      exact Option.some_ne_none _)
  have hnot : ∀ w, u ∉ ir.uses w := by
    intro w hmem
    have hop := Ir.operand_eq_some.mp ((h.mem w u).mp hmem)
    rw [hu] at hop
    cases hop
  constructor
  · intro w u'
    rw [Ir.operand_eq_some, hslot]
    show u' ∈ Function.update ir.uses v (ir.uses v ++ [u]) w ↔ _
    by_cases hw : w = v
    · subst hw
      rw [Function.update_self, List.mem_append, List.mem_singleton, h.mem, Ir.operand_eq_some]
      by_cases huu : u' = u
      · simp [huu]
      · simp [huu]
    · rw [Function.update_of_ne hw, h.mem, Ir.operand_eq_some]
      by_cases huu : u' = u
      · subst huu
        rw [hu]
        simp [Ne.symm hw]
      · rw [if_neg huu]
  · intro w
    show (Function.update ir.uses v (ir.uses v ++ [u]) w).Nodup
    by_cases hw : w = v
    · subst hw
      rw [Function.update_self]
      exact List.nodup_append.mpr ⟨h.nodup w, List.nodup_singleton u, fun a ha b hb hab => by
        rw [List.mem_singleton.mp hb] at hab
        exact hnot w (hab ▸ ha)⟩
    · rw [Function.update_of_ne hw]
      exact h.nodup w

theorem instSetUse_of_unset {inst k : ℕ} (hu : ir.slot ⟨inst, k⟩ = some none) :
    instSetUse ir inst k v = some ((ir.addUse v ⟨inst, k⟩).writeUse ⟨inst, k⟩ v) := by
  unfold Ir.slot at hu
  dsimp only at hu
  unfold instSetUse
  dsimp only
  rw [hu]

end SetUse

/-! ## Replacing a value -/

section Replace

variable {ir : Ir} {value replacement : Value} {u : Use}

/-- One use gets another value. -/
theorem replaceUse_spec (h : UseLists ir) (hne : value ≠ replacement)
    (hu : ir.operand u = some value) :
    UseLists (replaceUse value replacement ir u) ∧
      UsesOnly ir (replaceUse value replacement ir u) ∧
      ∀ u', (replaceUse value replacement ir u).slot u' =
        if u' = u then some (some replacement) else ir.slot u' := by
  have hslot : ∀ u', (replaceUse value replacement ir u).slot u' =
      if u' = u then some (some replacement) else ir.slot u' := fun u' =>
    slot_writeUse ((ir.deattachUse value u).addUse replacement u) u u' replacement (by
      show ir.slot u ≠ none
      rw [Ir.operand_eq_some.mp hu]
      exact Option.some_ne_none _)
  have hu' := Ir.operand_eq_some.mp hu
  have honly : UsesOnly ir (replaceUse value replacement ir u) :=
    ((usesOnly_deattachUse ir u value).trans (usesOnly_addUse _ u replacement)).trans
      (usesOnly_writeUse _ u replacement)
  have huses : ∀ w, (replaceUse value replacement ir u).uses w =
      if w = replacement then ir.uses replacement ++ [u]
      else if w = value then (ir.uses value).erase u else ir.uses w := by
    intro w
    show Function.update (Function.update ir.uses value _) replacement _ w = _
    by_cases hw : w = replacement
    · subst hw
      rw [Function.update_self, if_pos rfl]
      show Function.update ir.uses value _ w ++ [u] = _
      rw [Function.update_of_ne (Ne.symm hne)]
    · rw [Function.update_of_ne hw, if_neg hw]
      by_cases hv : w = value
      · subst hv
        rw [Function.update_self, if_pos rfl]
      · rw [Function.update_of_ne hv, if_neg hv]
  refine ⟨⟨fun w u' => ?_, fun w => ?_⟩, honly, hslot⟩
  · rw [Ir.operand_eq_some, hslot, huses]
    by_cases hw : w = replacement
    · subst hw
      rw [if_pos rfl, List.mem_append, List.mem_singleton, h.mem, Ir.operand_eq_some]
      by_cases huu : u' = u <;> simp [huu]
    · rw [if_neg hw]
      by_cases hv : w = value
      · subst hv
        rw [if_pos rfl, (h.nodup w).mem_erase_iff, h.mem, Ir.operand_eq_some]
        by_cases huu : u' = u
        · simp [huu, Ne.symm hw]
        · simp [huu]
      · rw [if_neg hv, h.mem, Ir.operand_eq_some]
        by_cases huu : u' = u
        · subst huu
          simp [hu', Ne.symm hw, Ne.symm hv]
        · rw [if_neg huu]
  · rw [huses]
    by_cases hw : w = replacement
    · rw [if_pos hw]
      refine List.nodup_append.mpr ⟨h.nodup _, List.nodup_singleton u, fun a ha b hb hab => ?_⟩
      rw [List.mem_singleton.mp hb] at hab
      subst hab
      have hrep := (h.mem replacement a).mp ha
      rw [hu] at hrep
      exact hne (Option.some.inj hrep)
    · rw [if_neg hw]
      by_cases hv : w = value
      · rw [if_pos hv]
        exact (h.nodup value).erase u
      · rw [if_neg hv]
        exact h.nodup w

/-- The uses of a list get another value. -/
theorem foldl_replaceUse_spec (hne : value ≠ replacement) (l : List Use) : ∀ ir : Ir,
    UseLists ir → (∀ u ∈ l, ir.operand u = some value) → l.Nodup →
    UseLists (l.foldl (replaceUse value replacement) ir) ∧
      UsesOnly ir (l.foldl (replaceUse value replacement) ir) ∧
      ∀ u', (l.foldl (replaceUse value replacement) ir).slot u' =
        if u' ∈ l then some (some replacement) else ir.slot u' := by
  induction l with
  | nil => exact fun ir h _ _ => ⟨h, .refl ir, fun u' => by simp⟩
  | cons u l ih =>
      intro ir h hl hnodup
      obtain ⟨hul, hnodup⟩ := List.nodup_cons.mp hnodup
      obtain ⟨h₁, honly₁, hslot₁⟩ := replaceUse_spec h hne (hl u List.mem_cons_self)
      have hl₁ : ∀ u' ∈ l, (replaceUse value replacement ir u).operand u' = some value := by
        intro u' hu'
        have hne' : u' ≠ u := by
          rintro rfl
          exact hul hu'
        rw [Ir.operand_eq, hslot₁, if_neg hne']
        exact hl u' (List.mem_cons_of_mem _ hu')
      obtain ⟨h₂, honly₂, hslot₂⟩ := ih _ h₁ hl₁ hnodup
      refine ⟨h₂, honly₁.trans honly₂, fun u' => ?_⟩
      rw [List.foldl_cons, hslot₂, hslot₁]
      by_cases hu' : u' ∈ l
      · simp [hu']
      · by_cases huu : u' = u
        · simp [huu]
        · simp [hu', huu]

/-- **`value_replaceAllUses`** replaces the value in all operands. -/
theorem valueReplaceAllUses_spec (h : UseLists ir) (hne : value ≠ replacement) :
    UseLists (valueReplaceAllUses ir value replacement) ∧
      UsesOnly ir (valueReplaceAllUses ir value replacement) ∧
      ∀ i, ((valueReplaceAllUses ir value replacement).insts i).uses =
        (ir.insts i).uses.map (fun o => if o = some value then some replacement else o) := by
  obtain ⟨hlists, honly, hslot⟩ := foldl_replaceUse_spec hne (ir.uses value) ir h
    (fun u hu => (h.mem value u).mp hu) (h.nodup value)
  refine ⟨hlists, honly, fun i => List.ext_getElem? fun k => ?_⟩
  rw [List.getElem?_map]
  refine (hslot ⟨i, k⟩).trans ?_
  have hdef : (ir.insts i).uses[k]? = ir.slot ⟨i, k⟩ := rfl
  rw [hdef]
  by_cases hmem : (⟨i, k⟩ : Use) ∈ ir.uses value
  · rw [if_pos hmem, Ir.operand_eq_some.mp ((h.mem _ _).mp hmem)]
    simp
  · have hno : ir.slot ⟨i, k⟩ ≠ some (some value) := fun hs =>
      hmem ((h.mem _ _).mpr (Ir.operand_eq_some.mpr hs))
    rw [if_neg hmem]
    cases hslot : ir.slot ⟨i, k⟩ with
    | none => rfl
    | some o =>
        have ho : o ≠ some value := fun ho => hno (ho ▸ hslot)
        simp [ho]

end Replace

/-! ## Giving a phi a value -/

section PhiInsert

variable {ir : Ir}

/-- The phi with two more slots that are not set. -/
def Ir.growPhi (ir : Ir) (phi : ℕ) : Ir :=
  { ir with
    insts := Function.update ir.insts phi
      { ir.insts phi with uses := (ir.insts phi).uses ++ [none, none] } }

theorem insts_growPhi (ir : Ir) (phi i : ℕ) : (ir.growPhi phi).insts i = if i = phi
    then { ir.insts i with uses := (ir.insts i).uses ++ [none, none] } else ir.insts i := by
  show Function.update ir.insts phi _ i = _
  by_cases hi : i = phi
  · subst hi
    rw [Function.update_self, if_pos rfl]
  · rw [Function.update_of_ne hi, if_neg hi]

theorem usesOnly_growPhi (ir : Ir) (phi : ℕ) : UsesOnly ir (ir.growPhi phi) := by
  refine ⟨fun i => ?_, rfl, rfl, rfl, rfl, rfl⟩
  rw [insts_growPhi]
  split <;> rfl

theorem slot_growPhi (ir : Ir) (phi : ℕ) (u : Use) : (ir.growPhi phi).slot u =
    if u = ⟨phi, (ir.insts phi).uses.length⟩ ∨ u = ⟨phi, (ir.insts phi).uses.length + 1⟩
      then some none else ir.slot u := by
  obtain ⟨i, k⟩ := u
  unfold Ir.slot
  dsimp only
  rw [insts_growPhi]
  by_cases hi : i = phi
  · subst hi
    simp only [if_true, Use.mk.injEq, true_and]
    by_cases hk : k < (ir.insts i).uses.length
    · rw [List.getElem?_append_left hk, if_neg (by omega)]
    · rw [List.getElem?_append_right (by omega), List.getElem?_eq_none (Nat.le_of_not_lt hk)]
      obtain ⟨d, rfl⟩ : ∃ d, k = (ir.insts i).uses.length + d :=
        ⟨_, (Nat.add_sub_of_le (by omega)).symm⟩
      rw [Nat.add_sub_cancel_left]
      match d with
      | 0 => simp
      | 1 => simp
      | d + 2 => simp
  · simp [hi]

/-- New slots are in no use list. -/
theorem UseLists.growPhi (h : UseLists ir) (phi : ℕ) : UseLists (ir.growPhi phi) := by
  refine ⟨fun v u => (h.mem v u).trans ?_, h.nodup⟩
  rw [Ir.operand_eq_some, Ir.operand_eq_some, slot_growPhi]
  split
  · rename_i hu
    have hnone : ir.slot u = none := by
      rcases hu with rfl | rfl
      · exact List.getElem?_eq_none (Nat.le_refl _)
      · exact List.getElem?_eq_none (Nat.le_succ _)
    rw [hnone]
    simp
  · rfl

/-- **`inst_phi_insertValue`** appends a pair that the phi does not have. -/
theorem instPhiInsertValue_spec (h : UseLists ir) (phi block : ℕ) (value : Value) :
    ∃ ir', instPhiInsertValue ir phi block value = some ir' ∧ UseLists ir' ∧ UsesOnly ir ir' ∧
      ∀ i, (ir'.insts i).uses =
        if i = phi ∧ phiHasPair block value (ir.insts phi).uses = false
          then (ir.insts i).uses ++ [some (.block block), some value] else (ir.insts i).uses := by
  by_cases hpair : phiHasPair block value (ir.insts phi).uses
  · refine ⟨ir, if_pos hpair, h, .refl ir, fun i => ?_⟩
    rw [if_neg (by simp [hpair])]
  · rw [Bool.not_eq_true] at hpair
    set n := (ir.insts phi).uses.length with hn
    have hslot₀ := slot_growPhi ir phi
    have hu₀ : (ir.growPhi phi).slot ⟨phi, n⟩ = some none := by
      rw [hslot₀, if_pos (.inl rfl)]
    set ir₁ := ((ir.growPhi phi).addUse (.block block) ⟨phi, n⟩).writeUse ⟨phi, n⟩ (.block block)
      with hir₁
    have hslot₁ : ∀ u, ir₁.slot u =
        if u = ⟨phi, n⟩ then some (some (.block block)) else (ir.growPhi phi).slot u := fun u =>
      slot_writeUse ((ir.growPhi phi).addUse (.block block) ⟨phi, n⟩) ⟨phi, n⟩ u _ (by
        show (ir.growPhi phi).slot ⟨phi, n⟩ ≠ none
        rw [hu₀]
        exact Option.some_ne_none _)
    have hlists₁ : UseLists ir₁ := (h.growPhi phi).setUse hu₀
    have hu₁ : ir₁.slot ⟨phi, n + 1⟩ = some none := by
      rw [hslot₁, if_neg (by simp), hslot₀, if_pos (.inr rfl)]
    set ir₂ := (ir₁.addUse value ⟨phi, n + 1⟩).writeUse ⟨phi, n + 1⟩ value with hir₂
    have hslot₂ : ∀ u, ir₂.slot u =
        if u = ⟨phi, n + 1⟩ then some (some value) else ir₁.slot u := fun u =>
      slot_writeUse (ir₁.addUse value ⟨phi, n + 1⟩) ⟨phi, n + 1⟩ u _ (by
        show ir₁.slot ⟨phi, n + 1⟩ ≠ none
        rw [hu₁]
        exact Option.some_ne_none _)
    refine ⟨ir₂, ?_, hlists₁.setUse hu₁, ?_, fun i => List.ext_getElem? fun k => ?_⟩
    · rw [instPhiInsertValue, if_neg (by simp [hpair])]
      show (do
        let ir ← instSetUse (ir.growPhi phi) phi n (.block block)
        instSetUse ir phi (n + 1) value) = some ir₂
      rw [instSetUse_of_unset hu₀]
      exact instSetUse_of_unset hu₁
    · exact (usesOnly_growPhi ir phi).trans (((usesOnly_addUse _ _ _).trans
        (usesOnly_writeUse _ _ _)).trans ((usesOnly_addUse _ _ _).trans (usesOnly_writeUse _ _ _)))
    · refine (hslot₂ ⟨i, k⟩).trans ?_
      rw [hslot₁, hslot₀]
      by_cases hi : i = phi
      · subst hi
        simp only [Use.mk.injEq, true_and, hpair, if_true, ← hn]
        by_cases hk : k < n
        · rw [List.getElem?_append_left hk, if_neg (by omega), if_neg (by omega),
            if_neg (by omega)]
          rfl
        · obtain ⟨d, rfl⟩ : ∃ d, k = n + d := ⟨_, (Nat.add_sub_of_le (by omega)).symm⟩
          rw [List.getElem?_append_right (by omega), ← hn, Nat.add_sub_cancel_left]
          match d with
          | 0 => simp
          | 1 => simp
          | d + 2 =>
              rw [if_neg (by omega), if_neg (by omega), if_neg (by omega)]
              exact List.getElem?_eq_none
                (show (ir.insts i).uses.length ≤ n + (d + 2) from by omega)
      · simp [hi, Ir.slot]

end PhiInsert
