/-
# Patching a sequence

Overwriting parts of a sequence.  When the parts are disjoint and lie inside it, the result
does not depend on the order in which they are overwritten (`Applied.unique`).
-/
import Mathlib.Data.List.Basic
import Mathlib.Data.List.Pairwise
import Mathlib.Tactic.Common

section Patch

variable {α : Type*}

/-- The sequence with the elements from `offset` on overwritten. -/
def patch (buffer : List α) (offset : ℕ) : List α → List α
  | [] => buffer
  | b :: bs => patch (buffer.set offset b) (offset + 1) bs

@[simp] theorem length_patch (buffer : List α) (offset : ℕ) (bs : List α) :
    (patch buffer offset bs).length = buffer.length := by
  induction bs generalizing buffer offset with
  | nil => rfl
  | cons b bs ih => rw [patch, ih, List.length_set]

/-- Outside the part nothing changes. -/
theorem getElem?_patch_of_outside (buffer : List α) {offset i : ℕ} {bs : List α}
    (h : i < offset ∨ offset + bs.length ≤ i) : (patch buffer offset bs)[i]? = buffer[i]? := by
  induction bs generalizing buffer offset with
  | nil => rfl
  | cons b bs ih =>
      rw [List.length_cons] at h
      rw [patch, ih _ (by omega), List.getElem?_set_ne (by omega)]

/-- Inside the part are the new elements. -/
theorem getElem?_patch_of_inside (buffer : List α) {offset k : ℕ} {bs : List α}
    (hk : k < bs.length) (h : offset + bs.length ≤ buffer.length) :
    (patch buffer offset bs)[offset + k]? = bs[k]? := by
  induction bs generalizing buffer offset k with
  | nil => exact absurd hk (Nat.not_lt_zero k)
  | cons b bs ih =>
      rw [List.length_cons] at hk h
      rw [patch]
      cases k with
      | zero =>
          rw [getElem?_patch_of_outside _ (.inl (by omega)), Nat.add_zero,
            List.getElem?_set_self (by omega)]
          rfl
      | succ k =>
          rw [show offset + (k + 1) = offset + 1 + k from by omega,
            ih _ (by omega) (by rw [List.length_set]; omega)]
          rfl

/-- All that comes after a place is overwritten. -/
theorem patch_append (old : List α) {xs bs : List α} (h : xs.length = bs.length) :
    patch (old ++ xs) old.length bs = old ++ bs := by
  induction bs generalizing old xs with
  | nil => rw [patch, List.length_eq_zero_iff.mp h]
  | cons b bs ih =>
      cases xs with
      | nil => cases h
      | cons x xs =>
          have hset : (old ++ x :: xs).set old.length b = (old ++ [b]) ++ xs := by
            rw [List.set_append_right _ _ (Nat.le_refl _), Nat.sub_self, List.set_cons_zero,
              List.append_assoc]
            rfl
          have hrest := ih (old ++ [b]) (Nat.succ.inj h)
          rw [List.length_append, List.length_singleton, List.append_assoc old [b] bs] at hrest
          rw [patch, hset]
          exact hrest

end Patch

/-! ## Disjoint parts -/

section Disjoint

variable {α ι : Type*} (offset : ι → ℕ) (bytes : ι → List α)

/-- The part `f` covers the position `i`. -/
def Covers (f : ι) (i : ℕ) : Prop := offset f ≤ i ∧ i < offset f + (bytes f).length

/-- Two parts have no position in common. -/
def Apart (f g : ι) : Prop :=
  offset f + (bytes f).length ≤ offset g ∨ offset g + (bytes g).length ≤ offset f

instance : Std.Symm (Apart offset bytes) := ⟨fun _ _ h => Or.symm h⟩

/-- The parts of `fields` that are `done` have been overwritten, and nothing else. -/
structure Applied (fields : List ι) (done : ι → Prop) (orig buffer : List α) : Prop where
  length : buffer.length = orig.length
  inside : ∀ f ∈ fields, done f → ∀ k < (bytes f).length,
    buffer[offset f + k]? = (bytes f)[k]?
  outside : ∀ i, (∀ f ∈ fields, done f → ¬ Covers offset bytes f i) → buffer[i]? = orig[i]?

variable {offset bytes} {fields : List ι} {done : ι → Prop} {orig buffer : List α}

/-- Before anything is done. -/
theorem Applied.start (offset : ι → ℕ) (bytes : ι → List α) (fields : List ι)
    (orig : List α) : Applied offset bytes fields (fun _ => False) orig orig where
  length := rfl
  inside _ _ hf := hf.elim
  outside _ _ := rfl

/-- **One more part.** -/
theorem Applied.step (happart : fields.Pairwise (Apart offset bytes))
    (hfits : ∀ f ∈ fields, offset f + (bytes f).length ≤ orig.length)
    (h : Applied offset bytes fields done orig buffer) {f : ι} (hf : f ∈ fields) :
    Applied offset bytes fields (fun g => done g ∨ g = f) orig
      (patch buffer (offset f) (bytes f)) where
  length := (length_patch _ _ _).trans h.length
  inside g hg hdone k hk := by
    have hfit : offset f + (bytes f).length ≤ buffer.length := by
      rw [h.length]
      exact hfits f hf
    by_cases hgf : g = f
    · subst hgf
      exact getElem?_patch_of_inside buffer hk hfit
    · have hap : Apart offset bytes g f :=
        happart.forall hg hf hgf
      have hout : offset g + k < offset f ∨ offset f + (bytes f).length ≤ offset g + k := by
        unfold Apart at hap
        omega
      rw [getElem?_patch_of_outside _ hout]
      exact h.inside g hg (hdone.resolve_right hgf) k hk
  outside i hi := by
    have hnot : ¬ Covers offset bytes f i := hi f hf (.inr rfl)
    have hout : i < offset f ∨ offset f + (bytes f).length ≤ i := by
      unfold Covers at hnot
      omega
    rw [getElem?_patch_of_outside _ hout]
    exact h.outside i fun g hg hdone => hi g hg (.inl hdone)

/-- Parts that have been done in another way of speaking. -/
theorem Applied.congr {done' : ι → Prop} (hdone : ∀ f ∈ fields, done f ↔ done' f)
    (h : Applied offset bytes fields done orig buffer) :
    Applied offset bytes fields done' orig buffer where
  length := h.length
  inside f hf hd := h.inside f hf ((hdone f hf).mpr hd)
  outside i hi := h.outside i fun f hf hd => hi f hf ((hdone f hf).mp hd)

/-- A run of parts. -/
theorem Applied.foldl (happart : fields.Pairwise (Apart offset bytes))
    (hfits : ∀ f ∈ fields, offset f + (bytes f).length ≤ orig.length) {fs : List ι}
    (hfs : ∀ f ∈ fs, f ∈ fields) (h : Applied offset bytes fields done orig buffer) :
    Applied offset bytes fields (fun g => done g ∨ g ∈ fs) orig
      (fs.foldl (fun b f => patch b (offset f) (bytes f)) buffer) := by
  induction fs generalizing buffer done with
  | nil => exact h.congr fun f _ => by simp
  | cons f fs ih =>
      have hstep := h.step happart hfits (hfs f List.mem_cons_self)
      refine (ih (fun g hg => hfs g (List.mem_cons_of_mem f hg)) hstep).congr fun g _ => ?_
      rw [List.mem_cons, or_assoc]

/-- **The result is unique.** -/
theorem Applied.unique {buffer' : List α} (h : Applied offset bytes fields done orig buffer)
    (h' : Applied offset bytes fields done orig buffer') : buffer = buffer' := by
  apply List.ext_getElem?
  intro i
  by_cases hcov : ∃ f ∈ fields, done f ∧ Covers offset bytes f i
  · obtain ⟨f, hf, hd, hlo, hhi⟩ := hcov
    obtain ⟨k, rfl⟩ := Nat.exists_eq_add_of_le hlo
    rw [h.inside f hf hd k (by omega), h'.inside f hf hd k (by omega)]
  · have hout : ∀ f ∈ fields, done f → ¬ Covers offset bytes f i :=
      fun f hf hd hc => hcov ⟨f, hf, hd, hc⟩
    rw [h.outside i hout, h'.outside i hout]

/-- A part that has been done, as a piece of the result. -/
theorem Applied.take_drop (h : Applied offset bytes fields done orig buffer) {f : ι}
    (hf : f ∈ fields) (hd : done f) :
    (buffer.drop (offset f)).take (bytes f).length = bytes f := by
  apply List.ext_getElem?
  intro k
  by_cases hk : k < (bytes f).length
  · rw [List.getElem?_take_of_lt hk, List.getElem?_drop]
    exact h.inside f hf hd k hk
  · rw [List.getElem?_eq_none (by rw [List.length_take]; omega),
      List.getElem?_eq_none (by omega)]

end Disjoint
