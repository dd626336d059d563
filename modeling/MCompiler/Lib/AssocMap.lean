/-
# Finite maps as lists of pairs

A finite map over keys that are compared by a Boolean function `eqv`, as the list of
its pairs in the order in which they were last set.  The facts about it assume that
`eqv` is an equivalence (`EqvKeys`) and that the keys of the list are pairwise
different (`Distinct`).
-/
import Mathlib.Data.List.Pairwise

namespace AssocMap

variable {K V : Type*} (eqv : K → K → Bool)

/-- The value of `k`. -/
def get (m : List (K × V)) (k : K) : Option V := (m.find? (fun x => eqv k x.1)).map Prod.snd

/-- Without a value for `k`. -/
def remove (m : List (K × V)) (k : K) : List (K × V) := m.filter (fun x => !eqv k x.1)

/-- With `v` as the value of `k`. -/
def set (m : List (K × V)) (k : K) (v : V) : List (K × V) := remove eqv m k ++ [(k, v)]

/-- No two pairs have equal keys. -/
def Distinct (m : List (K × V)) : Prop := m.Pairwise (fun x y => eqv x.1 y.1 = false)

/-- `eqv` is an equivalence. -/
structure EqvKeys : Prop where
  refl : ∀ a, eqv a a
  symm : ∀ a b, eqv a b → eqv b a
  trans : ∀ a b c, eqv a b → eqv b c → eqv a c

variable {eqv} {m : List (K × V)} {k : K}

theorem mem_remove {x : K × V} : x ∈ remove eqv m k ↔ x ∈ m ∧ eqv k x.1 = false := by
  simp [remove]

theorem Distinct.remove (h : Distinct eqv m) (k : K) : Distinct eqv (remove eqv m k) :=
  h.filter _

theorem get_eq_none_iff : get eqv m k = none ↔ ∀ x ∈ m, eqv k x.1 = false := by
  simp [get]

/-- What is found is a pair of the list. -/
theorem mem_of_get {v : V} (h : get eqv m k = some v) : ∃ k', (k', v) ∈ m ∧ eqv k k' := by
  obtain ⟨x, hx, rfl⟩ := Option.map_eq_some_iff.mp h
  have hfound : eqv k x.1 := by simpa using List.find?_some hx
  exact ⟨x.1, List.mem_of_find?_eq_some hx, hfound⟩

section Eqv

variable (he : EqvKeys eqv)
include he

theorem EqvKeys.ne_symm {a b : K} (h : eqv a b = false) : eqv b a = false := by
  cases hba : eqv b a with
  | false => rfl
  | true => exact (he.symm b a hba).symm.trans h

/-- Two pairs with equal keys are the same. -/
theorem Distinct.eq (h : Distinct eqv m) {x y : K × V} (hx : x ∈ m) (hy : y ∈ m)
    (hxy : eqv x.1 y.1) : x = y := by
  induction m with
  | nil => cases hx
  | cons z m ih =>
      obtain ⟨hz, hm⟩ := List.pairwise_cons.mp h
      rcases List.mem_cons.mp hx with rfl | hx'
      · rcases List.mem_cons.mp hy with rfl | hy'
        · rfl
        · rw [hz y hy'] at hxy
          cases hxy
      · rcases List.mem_cons.mp hy with rfl | hy'
        · rw [he.ne_symm (hz x hx')] at hxy
          cases hxy
        · exact ih hm hx' hy'

/-- Every pair of the list is found under the keys equal to its own. -/
theorem Distinct.get_of_mem (h : Distinct eqv m) {k' : K} {v : V} (hmem : (k', v) ∈ m)
    (hk : eqv k k') : get eqv m k = some v := by
  cases hget : get eqv m k with
  | none =>
      rw [get_eq_none_iff.mp hget _ hmem] at hk
      cases hk
  | some w =>
      obtain ⟨k'', hmem', hk'⟩ := mem_of_get hget
      have heq := h.eq he hmem hmem' (he.trans _ _ _ (he.symm _ _ hk) hk')
      rw [(Prod.mk.inj heq).2]

/-- Removing a key that is present removes one pair. -/
theorem Distinct.length_remove (h : Distinct eqv m) {v : V} (hget : get eqv m k = some v) :
    (AssocMap.remove eqv m k).length + 1 = m.length := by
  induction m with
  | nil => cases hget
  | cons z m ih =>
      obtain ⟨hz, hm⟩ := List.pairwise_cons.mp h
      cases hkz : eqv k z.1 with
      | true =>
          have hall : ∀ x ∈ m, eqv k x.1 = false := fun x hx => by
            cases hkx : eqv k x.1 with
            | false => rfl
            | true =>
                have hzx := he.trans _ _ _ (he.symm _ _ hkz) hkx
                rw [hz x hx] at hzx
                cases hzx
          have hrest : AssocMap.remove eqv m k = m :=
            List.filter_eq_self.mpr (fun x hx => by simp [hall x hx])
          rw [AssocMap.remove, List.filter_cons_of_neg (by simp [hkz])]
          exact congrArg (fun l => l.length + 1) hrest
      | false =>
          have hget' : AssocMap.get eqv m k = some v := by
            unfold AssocMap.get at hget ⊢
            rwa [List.find?_cons_of_neg (by simp [hkz])] at hget
          have hlen := ih hm hget'
          rw [AssocMap.remove, List.filter_cons_of_pos (by simp [hkz]), List.length_cons,
            List.length_cons]
          exact congrArg (· + 1) hlen

end Eqv

theorem remove_of_get_eq_none (h : get eqv m k = none) : remove eqv m k = m :=
  List.filter_eq_self.mpr (fun x hx => by simp [get_eq_none_iff.mp h x hx])

end AssocMap
