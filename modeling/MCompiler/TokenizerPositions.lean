/-
# Positions

`reader_advance` is the only function that steps over characters, one at a time, and it
tells `position_ingest` about each of them.  So after any calls of `token_next` the
position of the reader is that of the text consumed (`Advances`), and a token carries the
position at which its range starts.

* `positionIngest_foldl` : the position after a text, by its length, its line breaks and
  its last line;
* `tokenNext_positions` : after any number of calls the reader and the token have the
  positions that belong to their place in the text.
-/
import Mathlib.Data.List.DropRight
import MCompiler.TokenizerProgress

/-! ## The position of a place in a text -/

/-- What follows the last line break of a text. -/
def lastLine (text : Range) : Range := text.rtakeWhile (· ≠ byte '\n')

/-- The position after a text. -/
def positionAfter (text : Range) : Position where
  line := text.count (byte '\n')
  col := (lastLine text).countP (· ≠ byte '\r')
  offset := text.length

theorem positionAfter_concat (text : Range) (c : UInt8) :
    positionAfter (text ++ [c]) = positionIngest (positionAfter text) c := by
  unfold positionIngest positionAfter lastLine
  by_cases hline : c = byte '\n'
  · rw [if_pos hline, List.rtakeWhile_concat_neg _ _ _ (by simp [hline])]
    simp [hline]
  · rw [if_neg hline, List.rtakeWhile_concat_pos _ _ _ (by simp [hline])]
    by_cases hreturn : c = byte '\r'
    · rw [if_neg (not_not.mpr hreturn)]
      have hne : byte '\r' ≠ byte '\n' := by decide
      simp [List.countP_append, hreturn, hne]
    · rw [if_pos hreturn]
      simp [List.countP_append, hline, hreturn]

/-- **The fold of `position_ingest`.** -/
theorem positionIngest_foldl (text : Range) :
    text.foldl positionIngest {} = positionAfter text := by
  induction text using List.reverseRecOn with
  | nil => rfl
  | append_singleton text c ih => rw [List.foldl_concat, ih, positionAfter_concat]

/-! ## Stepping over characters -/

/-- From `reader` to `reader'` the bytes `consumed` have been stepped over. -/
structure Advances (reader reader' : Reader) (consumed : Range) : Prop where
  text : reader.range.text = consumed ++ reader'.range.text
  ptr : reader'.range.ptr = reader.range.ptr + consumed.length
  pos : reader'.pos = consumed.foldl positionIngest reader.pos

theorem Advances.refl (reader : Reader) : Advances reader reader [] := ⟨rfl, rfl, rfl⟩

theorem Advances.trans {r₁ r₂ r₃ : Reader} {first second : Range} (h : Advances r₁ r₂ first)
    (h' : Advances r₂ r₃ second) : Advances r₁ r₃ (first ++ second) where
  text := by rw [h.text, h'.text, List.append_assoc]
  ptr := by rw [h'.ptr, h.ptr, List.length_append, Nat.add_assoc]
  pos := by rw [h'.pos, h.pos, List.foldl_append]

/-- `reader_advance` steps over the next bytes, as far as there are any. -/
theorem readerAdvance_advances (i : ℕ) (reader : Reader) :
    ∃ consumed, Advances reader (readerAdvance reader i).1 consumed := by
  induction i generalizing reader with
  | zero => exact ⟨[], .refl reader⟩
  | succ i ih =>
      unfold readerAdvance
      split
      · exact ⟨[], .refl reader⟩
      · rename_i c text htext
        obtain ⟨consumed, h⟩ := ih ⟨positionIngest reader.pos c, reader.range.ptr + 1, text⟩
        have hone : Advances reader ⟨positionIngest reader.pos c, reader.range.ptr + 1, text⟩ [c] :=
          ⟨htext, rfl, rfl⟩
        exact ⟨c :: consumed, hone.trans h⟩

theorem readWhile_advances (kind : UInt8 → Bool) (text : Range) (reader : Reader) :
    ∃ consumed, Advances reader (readWhile kind text reader).1 consumed := by
  induction text generalizing reader with
  | nil => exact ⟨[], .refl reader⟩
  | cons c text ih =>
      unfold readWhile
      split
      · obtain ⟨first, h⟩ := readerAdvance_advances 1 reader
        obtain ⟨second, h'⟩ := ih (readerAdvance reader 1).1
        exact ⟨first ++ second, h.trans h'⟩
      · exact ⟨[], .refl reader⟩

/-! ## Tokens -/

/-- A token that starts at the reader `origin`, and the reader after it. -/
structure StartsAt (origin : Reader) (result : TextToken × Reader) : Prop where
  pos : result.1.pos = origin.pos
  ptr : result.1.range.ptr = origin.range.ptr
  word : result.1.range.text <+: origin.range.text
  advances : ∃ consumed, Advances origin result.2 consumed

namespace StartsAt

variable {origin reader : Reader} {token : TextToken}

theorem advance (h : StartsAt origin (token, reader)) (i : ℕ) :
    StartsAt origin (token, (readerAdvance reader i).1) where
  pos := h.pos
  ptr := h.ptr
  word := h.word
  advances := by
    obtain ⟨first, hfirst⟩ := h.advances
    obtain ⟨second, hsecond⟩ := readerAdvance_advances i reader
    exact ⟨first ++ second, hfirst.trans hsecond⟩

/-- The type does not matter. -/
theorem withType (h : StartsAt origin (token, reader)) (type : TokenType) :
    StartsAt origin ({ token with type := type }, reader) :=
  ⟨h.pos, h.ptr, h.word, h.advances⟩

theorem isEq (h : StartsAt origin (token, reader)) :
    StartsAt origin ((readerIsEq reader token origin.range.text).2.2,
      (readerIsEq reader token origin.range.text).2.1) := by
  unfold readerIsEq
  split
  · exact h
  · split
    · exact ⟨h.pos, h.ptr, List.take_prefix _ _, (h.advance 1).advances⟩
    · exact h

theorem lessThan (h : StartsAt origin (token, reader)) {start : Range}
    (hstart : origin.range.text = start) :
    StartsAt origin (lessThanCase start reader token) := by
  subst hstart
  have hread := (h.withType .LESS_THAN).isEq
  unfold lessThanCase
  dsimp only
  split
  · exact hread.withType .LESS_EQ
  · exact hread

end StartsAt

/-- **The switch** returns a token that starts at the reader. -/
theorem tokenSwitch_startsAt {reader : Reader} {c : UInt8} {text : Range}
    (hreader : reader.range.text = c :: text) :
    StartsAt reader (tokenSwitch reader c text) := by
  have hstart : StartsAt reader (⟨.ERROR, reader.pos, reader.range.ptr, [c]⟩, reader) :=
    ⟨rfl, rfl, by rw [hreader]; exact ⟨text, rfl⟩, [], .refl reader⟩
  have hassign := ((hstart.withType .ASSIGN).advance 1).isEq
  have hgreater := (hstart.withType .GREATER).isEq
  rw [hreader] at hassign hgreater
  fun_cases tokenSwitch reader c text
  iterate 8 exact (hstart.advance 1).withType _
  · rename_i hread
    rw [hread] at hassign
    dsimp only at hassign ⊢
    split
    · exact hassign.withType _
    · exact hassign
  · -- `>`, and on to the case of `<`
    rename_i hread _
    rw [hread] at hgreater
    dsimp only at hgreater
    apply StartsAt.lessThan _ hreader
    apply StartsAt.advance
    show StartsAt reader (if _ then _ else _, _)
    split
    · exact hgreater.withType _
    · exact hgreater
  · exact hstart.lessThan hreader
  · exact (hstart.advance 1).withType _
  · rename_i hread
    unfold readId at hread
    cases hread
    exact ⟨rfl, rfl, List.take_prefix _ _, readWhile_advances isWordChar _ reader⟩
  · rename_i hread
    unfold readNum at hread
    cases hread
    exact ⟨rfl, rfl, List.take_prefix _ _, readWhile_advances isDigit _ reader⟩
  · exact hstart

/-- **One call**: the token starts at some place that the reader steps over on its way. -/
theorem tokenNext_startsAt (reader : Reader) :
    ∃ (origin : Reader) (white consumed : Range), Advances reader origin white ∧
      Advances origin (tokenNext reader).2 consumed ∧
      (tokenNext reader).1.pos = origin.pos ∧
      ((tokenNext reader).1.type = .EEOF ∧ (tokenNext reader).1.range.text = [] ∧
          origin.range.text = [] ∨
        (tokenNext reader).1.range.ptr = origin.range.ptr ∧
          (tokenNext reader).1.range.text <+: origin.range.text) := by
  obtain ⟨white, hwhite⟩ := readWhile_advances isWhite reader.range.text reader
  change Advances reader (readerSkipWhite reader) white at hwhite
  refine ⟨readerSkipWhite reader, white, ?_⟩
  unfold tokenNext
  dsimp only
  split
  · rename_i htext
    exact ⟨[], hwhite, .refl _, rfl, .inl ⟨rfl, rfl, htext⟩⟩
  · rename_i c text htext
    have hswitch := tokenSwitch_startsAt htext
    obtain ⟨consumed, hconsumed⟩ := hswitch.advances
    exact ⟨consumed, hwhite, hconsumed, hswitch.pos, .inr ⟨hswitch.ptr, hswitch.word⟩⟩

/-! ## Runs -/

/-- The reader after some calls of `token_next`. -/
def readerAfter (text : Range) (calls : ℕ) : Reader :=
  (fun reader => (tokenNext reader).2)^[calls] (readerOf text)

/-- Any number of calls step over a prefix of the text. -/
theorem readerAfter_advances (text : Range) (calls : ℕ) :
    ∃ consumed, Advances (readerOf text) (readerAfter text calls) consumed := by
  induction calls with
  | zero => exact ⟨[], .refl _⟩
  | succ calls ih =>
      obtain ⟨first, hfirst⟩ := ih
      obtain ⟨origin, white, rest, hwhite, hrest, -⟩ :=
        tokenNext_startsAt (readerAfter text calls)
      refine ⟨first ++ (white ++ rest), ?_⟩
      unfold readerAfter
      rw [Function.iterate_succ_apply']
      exact hfirst.trans (hwhite.trans hrest)

/-- A place that is reached from the start of a text has the position of the text
before it. -/
theorem Advances.ofStart {text consumed : Range} {reader : Reader}
    (h : Advances (readerOf text) reader consumed) :
    text = consumed ++ reader.range.text ∧ reader.range.ptr = consumed.length ∧
      reader.pos = positionAfter consumed :=
  ⟨h.text, h.ptr.trans (Nat.zero_add _), h.pos.trans (positionIngest_foldl consumed)⟩

/-- **Positions are exact.**  After any number of calls the position of the reader is that
of the text consumed, the offset and the size left add up to the size of the text, and the
next token has the position of the first byte of its range; the end of the text has the
position after the text. -/
theorem tokenNext_positions (text : Range) (calls : ℕ) :
    (∃ consumed, text = consumed ++ (readerAfter text calls).range.text ∧
      (readerAfter text calls).pos = consumed.foldl positionIngest {} ∧
      (readerAfter text calls).pos = positionAfter consumed) ∧
    (readerAfter text calls).pos.offset + (readerAfter text calls).range.text.length =
      text.length ∧
    ∀ token, token = (tokenNext (readerAfter text calls)).1 →
      (token.type = .EEOF ∧ token.range.text = [] ∧ token.pos = positionAfter text) ∨
      ∃ before after, text = before ++ token.range.text ++ after ∧
        token.range.ptr = before.length ∧ token.pos = positionAfter before := by
  obtain ⟨consumed, hadvances⟩ := readerAfter_advances text calls
  obtain ⟨htext, -, hpos⟩ := hadvances.ofStart
  refine ⟨⟨consumed, htext, hadvances.pos, hpos⟩, ?_, ?_⟩
  · rw [hpos]
    nth_rewrite 2 [htext]
    exact (List.length_append).symm
  · rintro token rfl
    obtain ⟨origin, white, _, hwhite, -, htoken, hplace⟩ :=
      tokenNext_startsAt (readerAfter text calls)
    obtain ⟨hbefore, hptr, hplacePos⟩ := (hadvances.trans hwhite).ofStart
    rw [htoken, hplacePos]
    rcases hplace with ⟨htype, hrange, hend⟩ | ⟨hrange, rest, hword⟩
    · rw [hend, List.append_nil] at hbefore
      exact .inl ⟨htype, hrange, by rw [← hbefore]⟩
    · refine .inr ⟨consumed ++ white, rest, ?_, hrange.trans hptr, rfl⟩
      rw [List.append_assoc (consumed ++ white), hword]
      exact hbefore
