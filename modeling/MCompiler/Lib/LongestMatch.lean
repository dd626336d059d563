/-
# The longest word of a language that a text starts with

A language is a predicate on words.  `Longest L text w` : no longer word of `L` is a
prefix of `text`.  Words that are runs of letters of one kind, with a condition on the
first letter, are found by `List.takeWhile`.
-/
import Mathlib.Data.List.TakeWhile
import Mathlib.Tactic.Common

variable {α : Type*}

/-- `w` is the longest word of `L` at the start of `text`. -/
structure Longest (L : List α → Prop) (text w : List α) : Prop where
  isPrefix : w <+: text
  mem : L w
  maximal : ∀ w', w' <+: text → L w' → w'.length ≤ w.length

namespace Longest

variable {L : List α → Prop} {text w w' : List α}

/-- There is at most one longest word. -/
theorem unique (h : Longest L text w) (h' : Longest L text w') : w = w' := by
  have hlen : w.length = w'.length :=
    Nat.le_antisymm (h'.maximal w h.isPrefix h.mem) (h.maximal w' h'.isPrefix h'.mem)
  exact (List.prefix_of_prefix_length_le h.isPrefix h'.isPrefix hlen.le).eq_of_length hlen

end Longest

/-- A prefix all of whose letters satisfy `p` is in the run of such letters. -/
theorem List.IsPrefix.length_le_takeWhile {p : α → Bool} {w text : List α} (h : w <+: text)
    (hw : ∀ c ∈ w, p c) : w.length ≤ (text.takeWhile p).length := by
  obtain ⟨rest, rfl⟩ := h
  rw [List.takeWhile_append_of_pos hw, List.length_append]
  exact Nat.le_add_right _ _

/-- **The longest run**, where the words at the start of a text are runs of letters of one
kind. -/
theorem longest_takeWhile {L : List α → Prop} {p : α → Bool} {text : List α}
    (hmem : L (text.takeWhile p)) (hrun : ∀ w, w <+: text → L w → ∀ c ∈ w, p c) :
    Longest L text (text.takeWhile p) :=
  ⟨List.takeWhile_prefix p, hmem,
    fun w hw hL => hw.length_le_takeWhile (hrun w hw hL)⟩

/-- The longest word has one letter, if no word goes on. -/
theorem longest_singleton {L : List α → Prop} {c : α} {text : List α} (hmem : L [c])
    (hmax : ∀ c' w, c' :: w <+: text → ¬ L (c :: c' :: w)) : Longest L (c :: text) [c] where
  isPrefix := ⟨text, rfl⟩
  mem := hmem
  maximal w hw hL := by
    rcases w with _ | ⟨c', _ | ⟨c'', w⟩⟩
    · exact Nat.zero_le _
    · exact le_refl _
    · obtain ⟨rfl, htail⟩ := List.cons_prefix_cons.mp hw
      exact absurd hL (hmax _ _ htail)

/-- The longest word has two letters, if all words have at most two. -/
theorem longest_pair {L : List α → Prop} {c c' : α} {text : List α} (hmem : L [c, c'])
    (hmax : ∀ w, w <+: c :: c' :: text → L w → w.length ≤ 2) :
    Longest L (c :: c' :: text) [c, c'] :=
  ⟨⟨text, rfl⟩, hmem, hmax⟩
