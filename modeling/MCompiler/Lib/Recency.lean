/-
# Lists in order of last use

Generic support for caches that evict what has not been used for the longest time.
`byLastUse history stays` lists the elements of a history of uses that satisfy
`stays`, in order of their last use, and the lemmas say how the list changes when an
element is used (`byLastUse_use`, `byLastUse_enter`) or drops out (`byLastUse_leave`).
`UsedBefore` says what the order means (`byLastUse_pairwise`).
-/
import Mathlib.Data.List.Dedup
import Mathlib.Data.List.Nodup

namespace Recency

variable {α : Type*}

/-- The last use of `a` lies before a use of `b`. -/
def UsedBefore (history : List α) (a b : α) : Prop :=
  ∃ before after, history = before ++ a :: after ∧ a ∉ after ∧ b ∈ after

theorem UsedBefore.cons {history : List α} {a b : α} (h : UsedBefore history a b) (c : α) :
    UsedBefore (c :: history) a b := by
  obtain ⟨before, after, rfl, hnot, hmem⟩ := h
  exact ⟨c :: before, after, rfl, hnot, hmem⟩

variable [DecidableEq α]

/-- The elements of the history that satisfy `stays`, each once, in order of last use. -/
def byLastUse (history : List α) (stays : α → Bool) : List α := history.dedup.filter stays

variable {history : List α} {stays stays' : α → Bool} {a : α}

theorem mem_byLastUse : a ∈ byLastUse history stays ↔ a ∈ history ∧ stays a = true := by
  rw [byLastUse, List.mem_filter, List.mem_dedup]

theorem dedup_pairwise (history : List α) : history.dedup.Pairwise (UsedBefore history) := by
  induction history with
  | nil => exact List.Pairwise.nil
  | cons c history ih =>
      have hrest : history.dedup.Pairwise (UsedBefore (c :: history)) :=
        ih.imp fun h => h.cons c
      by_cases hc : c ∈ history
      · rwa [List.dedup_cons_of_mem hc]
      · rw [List.dedup_cons_of_notMem hc]
        apply List.Pairwise.cons _ hrest
        intro b hb
        exact ⟨[], history, rfl, hc, List.mem_dedup.mp hb⟩

/-- **The list is in order of last use.** -/
theorem byLastUse_pairwise (history : List α) (stays : α → Bool) :
    (byLastUse history stays).Pairwise (UsedBefore history) := by
  apply List.Pairwise.filter
  exact dedup_pairwise history

theorem dedup_concat (history : List α) (a : α) :
    (history ++ [a]).dedup = history.dedup.filter (fun b => b ≠ a) ++ [a] := by
  induction history with
  | nil => rfl
  | cons c history ih =>
      rw [List.cons_append]
      by_cases hca : c = a
      · subst hca
        rw [List.dedup_cons_of_mem (by simp), ih]
        by_cases hc : c ∈ history
        · rw [List.dedup_cons_of_mem hc]
        · rw [List.dedup_cons_of_notMem hc, List.filter_cons_of_neg (by simp)]
      · by_cases hc : c ∈ history
        · rw [List.dedup_cons_of_mem (List.mem_append_left _ hc), List.dedup_cons_of_mem hc, ih]
        · have hnot : c ∉ history ++ [a] := by simp [hc, hca]
          rw [List.dedup_cons_of_notMem hnot, List.dedup_cons_of_notMem hc, ih,
            List.filter_cons_of_pos (by simp [hca]), List.cons_append]

/-- Using an element that is out changes nothing. -/
theorem byLastUse_skip (ha : stays a = false) :
    byLastUse (history ++ [a]) stays = byLastUse history stays := by
  have hgone : ∀ b ∈ history.dedup, (stays b && decide (b ≠ a)) = stays b := by
    intro b _
    by_cases hba : b = a
    · rw [hba, ha]
      rfl
    · simp [hba]
  rw [byLastUse, byLastUse, dedup_concat, List.filter_append, List.filter_filter,
    List.filter_congr hgone, List.filter_cons_of_neg (by simp [ha]), List.filter_nil,
    List.append_nil]

/-- An element drops out. -/
theorem byLastUse_leave (ha : stays' a = false) (hother : ∀ b, b ≠ a → stays' b = stays b) :
    byLastUse history stays' = (byLastUse history stays).erase a := by
  have hnodup : (byLastUse history stays).Nodup := (List.nodup_dedup history).filter _
  have hgone : ∀ b ∈ history.dedup, (decide (b ≠ a) && stays b) = stays' b := by
    intro b _
    by_cases hba : b = a
    · subst hba
      simp [ha]
    · simp [hba, hother b hba]
  rw [hnodup.erase_eq_filter, byLastUse, byLastUse, List.filter_filter]
  apply (List.filter_congr _).symm
  intro b hb
  rw [← hgone b hb]
  by_cases hba : b = a
  · simp [hba]
  · simp [hba]

/-- An element that is out is used and comes in. -/
theorem byLastUse_enter (ha : a ∉ byLastUse history stays) (ha' : stays' a = true)
    (hother : ∀ b, b ≠ a → stays' b = stays b) :
    byLastUse (history ++ [a]) stays' = byLastUse history stays ++ [a] := by
  have hsame : ∀ b ∈ history.dedup, (stays' b && decide (b ≠ a)) = stays b := by
    intro b hb
    by_cases hba : b = a
    · subst hba
      have hout : stays b = false := by
        rcases hs : stays b with _ | _
        · rfl
        · exact absurd (mem_byLastUse.mpr ⟨List.mem_dedup.mp hb, hs⟩) ha
      simp [hout]
    · simp [hba, hother b hba]
  rw [byLastUse, byLastUse, dedup_concat, List.filter_append, List.filter_filter,
    List.filter_congr hsame, List.filter_cons_of_pos ha', List.filter_nil]

/-- An element that is in is used: it moves to the end. -/
theorem byLastUse_use (ha : stays a = true) :
    byLastUse (history ++ [a]) stays = (byLastUse history stays).erase a ++ [a] := by
  have hleave : byLastUse history (fun b => stays b && decide (b ≠ a)) =
      (byLastUse history stays).erase a := by
    apply byLastUse_leave
    · simp
    · intro b hba
      simp [hba]
  rw [← hleave]
  apply byLastUse_enter
  · rw [mem_byLastUse]
    simp
  · exact ha
  · intro b hba
    simp [hba]

end Recency
