/-
# The value stacks

Renaming a block pushes values on the stacks of the registers, and pops as many in the end.
`pushAll` and `popAll` are many pushes and pops at once; `popAll_pushAll` : popping what was
pushed, in any order, gives the stacks back.  `tops` is the value of every register.
-/
import MCompiler.SsaConversion

/-- The value of every register, if it has one. -/
abbrev Env := ℕ → Option Value

/-- A register id of 32 bits: no two of these are the same `int`. -/
def IntReg (rId : ℕ) : Prop := rId < 2 ^ 32

instance (rId : ℕ) : Decidable (IntReg rId) := inferInstanceAs (Decidable (_ < _))

theorem toInt_reg_inj {a b : ℕ} (ha : IntReg a) (hb : IntReg b) :
    toInt (a : ℤ) = toInt (b : ℤ) ↔ a = b := by
  unfold IntReg at ha hb
  refine ⟨fun h => ?_, fun h => h ▸ rfl⟩
  unfold toInt at h
  rw [Int.bmod_def, Int.bmod_def] at h
  omega

/-- The values on top of the stacks. -/
def VariableMap.tops (vm : VariableMap) : Env := fun a =>
  if IntReg a then getLastValueUnsafe vm a else none

/-- The registers that have a stack. -/
def VariableMap.Has (vm : VariableMap) (rId : ℕ) : Prop := vm.regs (toInt rId) ≠ none

/-- Many pushes, the first one first. -/
def VariableMap.pushAll (vm : VariableMap) (l : List (ℕ × Value)) : VariableMap :=
  { vm with regs := fun key => (vm.regs key).map fun rInfo =>
      { rInfo with valueStack :=
          ((l.filter fun e => toInt e.1 = key).map Prod.snd).reverse ++ rInfo.valueStack } }

/-- Many pops. -/
def VariableMap.popAll (vm : VariableMap) (l : List ℕ) : VariableMap :=
  { vm with regs := fun key => (vm.regs key).map fun rInfo =>
      { rInfo with valueStack :=
          rInfo.valueStack.drop (l.filter fun a : ℕ => toInt a = key).length } }

section Push

variable {vm : VariableMap} {l : List (ℕ × Value)} {a : ℕ} {v : Value}

@[simp] theorem pushAll_nil : vm.pushAll [] = vm := by
  obtain ⟨regs, list⟩ := vm
  unfold VariableMap.pushAll
  congr 1
  funext key
  show (regs key).map _ = regs key
  cases regs key <;> rfl

theorem pushAll_has : (vm.pushAll l).Has a ↔ vm.Has a := by
  unfold VariableMap.Has VariableMap.pushAll
  dsimp only
  rw [ne_eq, Option.map_eq_none_iff]

/-- One more push. -/
theorem pushValue_pushAll (ha : vm.Has a) :
    pushValue (vm.pushAll l) a v = some (vm.pushAll (l ++ [(a, v)])) := by
  obtain ⟨rInfo, hr⟩ := Option.ne_none_iff_exists'.mp ha
  have hget : (vm.pushAll l).regs (toInt a) = some { rInfo with valueStack :=
      ((l.filter fun e => toInt e.1 = toInt a).map Prod.snd).reverse ++ rInfo.valueStack } := by
    unfold VariableMap.pushAll
    dsimp only
    rw [hr]
    rfl
  unfold pushValue
  rw [hget]
  show some (VariableMap.mk _ _) = some (VariableMap.mk _ _)
  congr 2
  funext key
  show Function.update (vm.pushAll l).regs (toInt a) _ key = (vm.pushAll (l ++ [(a, v)])).regs key
  by_cases hkey : key = toInt a
  · rw [hkey, Function.update_self]
    unfold VariableMap.pushAll
    dsimp only
    rw [hr]
    simp [List.filter_append]
  · rw [Function.update_of_ne hkey]
    unfold VariableMap.pushAll
    dsimp only
    rw [List.filter_append]
    simp [Ne.symm hkey]

/-- A push changes the value of its register. -/
theorem tops_pushAll_append (ha : vm.Has a) (hreg : IntReg a) :
    (vm.pushAll (l ++ [(a, v)])).tops = Function.update (vm.pushAll l).tops a (some v) := by
  funext b
  obtain ⟨rInfo, hr⟩ := Option.ne_none_iff_exists'.mp ha
  by_cases hb : b = a
  · subst hb
    rw [Function.update_self, VariableMap.tops, if_pos hreg]
    unfold getLastValueUnsafe VariableMap.pushAll
    dsimp only
    rw [hr]
    simp [List.filter_append]
  · rw [Function.update_of_ne hb]
    unfold VariableMap.tops
    by_cases hbreg : IntReg b
    · rw [if_pos hbreg, if_pos hbreg]
      have hne : ¬ toInt (a : ℤ) = toInt (b : ℤ) := fun heq =>
        hb ((toInt_reg_inj hreg hbreg).mp heq).symm
      unfold getLastValueUnsafe VariableMap.pushAll
      dsimp only
      rw [List.filter_append]
      simp [hne]
    · rw [if_neg hbreg, if_neg hbreg]

end Push

section Pop

variable {vm : VariableMap} {l : List ℕ} {a : ℕ}

@[simp] theorem popAll_nil : vm.popAll [] = vm := by
  obtain ⟨regs, list⟩ := vm
  unfold VariableMap.popAll
  congr 1
  funext key
  show (regs key).map _ = regs key
  cases regs key <;> rfl

/-- One more pop, if the stack is high enough. -/
theorem popValue_popAll {rInfo : RegInfo} (hr : vm.regs (toInt a) = some rInfo)
    (hlen : (l.filter fun b : ℕ => toInt b = toInt a).length < rInfo.valueStack.length) :
    popValue (vm.popAll l) a = some (vm.popAll (l ++ [a])) := by
  set n := (l.filter fun b : ℕ => toInt b = toInt a).length with hn
  have hget : (vm.popAll l).regs (toInt a) =
      some { rInfo with valueStack := rInfo.valueStack.drop n } := by
    unfold VariableMap.popAll
    dsimp only
    rw [hr]
    rfl
  have hne : rInfo.valueStack.drop n ≠ [] := by
    rw [ne_eq, List.drop_eq_nil_iff]
    omega
  unfold popValue
  rw [hget, Option.bind_eq_bind, Option.bind_some]
  dsimp only
  rw [guard, if_pos hne]
  show some (VariableMap.mk _ _) = some (VariableMap.mk _ _)
  congr 2
  funext key
  show Function.update (vm.popAll l).regs (toInt a) _ key = (vm.popAll (l ++ [a])).regs key
  by_cases hkey : key = toInt a
  · rw [hkey, Function.update_self]
    unfold VariableMap.popAll
    dsimp only
    rw [hr]
    simp [List.filter_append, hn]
  · rw [Function.update_of_ne hkey]
    unfold VariableMap.popAll
    dsimp only
    rw [List.filter_append]
    simp [Ne.symm hkey]

end Pop

section PushPop

variable {vm : VariableMap} {l : List (ℕ × Value)}

/-- **Popping what was pushed**, in any order. -/
theorem popAll_pushAll {ks : List ℕ} (h : ks.Perm (l.map Prod.fst)) :
    (vm.pushAll l).popAll ks = vm := by
  obtain ⟨regs, list⟩ := vm
  show VariableMap.mk _ _ = VariableMap.mk _ _
  congr 1
  funext key
  show Option.map _ (Option.map _ (regs key)) = regs key
  cases regs key with
  | none => rfl
  | some rInfo =>
      have hcount : (ks.filter fun a : ℕ => toInt a = key).length =
          ((l.filter fun e => toInt e.1 = key).map Prod.snd).reverse.length := by
        rw [(h.filter _).length_eq, List.filter_map, List.length_map, List.length_reverse,
          List.length_map]
        simp only [Function.comp_def]
      show some { rInfo with valueStack := List.drop _ (_ ++ rInfo.valueStack) } = some rInfo
      rw [hcount, List.drop_left]

/-- Pops of a part of what was pushed succeed. -/
theorem popValue_pushAll {ks ks' : List ℕ} {a : ℕ}
    (h : (ks ++ a :: ks').Perm (l.map Prod.fst)) (ha : vm.Has a) :
    popValue ((vm.pushAll l).popAll ks) a = some ((vm.pushAll l).popAll (ks ++ [a])) := by
  obtain ⟨rInfo, hr⟩ := Option.ne_none_iff_exists'.mp ha
  have hpush : (vm.pushAll l).regs (toInt a) = some { rInfo with valueStack :=
      ((l.filter fun e => toInt e.1 = toInt a).map Prod.snd).reverse ++ rInfo.valueStack } := by
    unfold VariableMap.pushAll
    dsimp only
    rw [hr]
    rfl
  apply popValue_popAll hpush
  · have hcount : ((ks ++ a :: ks').filter fun b : ℕ => toInt b = toInt a).length =
        (l.filter fun e => toInt e.1 = toInt a).length := by
      rw [(h.filter _).length_eq, List.filter_map, List.length_map]
      simp only [Function.comp_def]
    rw [List.filter_append, List.length_append, List.filter_cons_of_pos (by simp),
      List.length_cons] at hcount
    show _ < (_ ++ _ : List Value).length
    rw [List.length_append, List.length_reverse, List.length_map]
    omega

end PushPop
