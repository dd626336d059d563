/-
# The length of a text (`ir.c`)

Besides names and numbers the text of a block consists of short strings, and the names and
numbers that a dump gives and prints have at most 11 bytes.  So the text fits in a buffer of
`dbuffer_init` if it has at most 2000 bytes, unless a long name has been given before.

* `fitsBuffer_text_iff` : a text with short names fits exactly if it has at most 2000 bytes;
* `length_renderText_le` : how long a text can get.
-/
import MCompiler.IrText

/-! ## Names that are given -/

/-- A dump leaves a name or gives a number as one. -/
theorem ValueNames.name_after (items : List TextItem) (value : Value) : ∀ names : ValueNames,
    (names.after items).name value = names.name value ∨
      ∃ n : ℕ, (names.after items).name value = intText n := by
  unfold ValueNames.after
  induction items.filterMap TextItem.value? with
  | nil => exact fun names => .inl rfl
  | cons other values ih =>
      intro names
      rw [List.foldl_cons]
      rcases ih (names.named other) with hkept | ⟨n, hn⟩
      · rw [hkept]
        unfold ValueNames.named
        split
        · exact .inl rfl
        · by_cases heq : value = other
          · subst heq
            exact .inr ⟨names.valueNameCounter, Function.update_self _ _ _⟩
          · exact .inl (Function.update_of_ne heq _ _)
      · exact .inr ⟨n, hn⟩

theorem ValueNames.length_name_after (names : ValueNames) (items : List TextItem)
    (value : Value) :
    ((names.after items).name value).length ≤ max 11 (names.name value).length := by
  rcases names.name_after items value with hkept | ⟨n, hn⟩
  · rw [hkept]
    exact Nat.le_max_right _ _
  · rw [hn]
    exact (length_intText_le n).trans (Nat.le_max_left _ _)

theorem noNull_intText (number : ℤ) : 0 ∉ intText number := by
  have hzero : ¬ isDigit 0 := by decide
  have hnumeral := intText_isIntNumeral number
  unfold IsIntNumeral at hnumeral
  split at hnumeral
  · obtain ⟨digits, hdigits, hdigit⟩ := hnumeral
    rw [hdigits]
    intro hmem
    rcases List.mem_cons.mp hmem with heq | hmem
    · exact absurd heq (by decide)
    · exact hzero (hdigit.digit _ hmem)
  · exact fun hmem => hzero (hnumeral.digit _ hmem)

theorem noNull_after {names : ValueNames} (hnull : ∀ value, 0 ∉ names.name value)
    (items : List TextItem) (value : Value) : 0 ∉ (names.after items).name value := by
  rcases names.name_after items value with hkept | ⟨n, hn⟩
  · rw [hkept]
    exact hnull value
  · rw [hn]
    exact noNull_intText n

/-! ## The strings of a block -/

/-- An item whose text, if it is fixed, is short and has no null byte. -/
def TextItem.Short : TextItem → Prop
  | .text bytes => bytes.length ≤ 10 ∧ 0 ∉ bytes
  | .number _ => True
  | .name _ => True

instance : DecidablePred TextItem.Short := fun item => by
  cases item <;> unfold TextItem.Short <;> infer_instance

theorem short_separated {separator : String} (hseparator : (TextItem.string separator).Short)
    (parts : List (List TextItem)) (h : ∀ items ∈ parts, ∀ item ∈ items, item.Short) :
    ∀ item ∈ separatedItems separator parts, item.Short := by
  induction parts with
  | nil => exact fun _ hitem => absurd hitem List.not_mem_nil
  | cons items rest ih =>
      intro item hitem
      rw [separatedItems] at hitem
      rcases List.mem_append.mp hitem with hitem | hitem
      · rcases List.mem_append.mp hitem with hitem | hitem
        · exact h items List.mem_cons_self item hitem
        · split at hitem
          · exact absurd hitem List.not_mem_nil
          · exact List.mem_singleton.mp hitem ▸ hseparator
      · exact ih (fun items hitems => h items (List.mem_cons_of_mem _ hitems)) item hitem

section Short

variable (ir : Ir) (dot : Bool)

theorem short_newLine : (newLineItem dot).Short := by
  cases dot <;> decide

theorem short_inst (inst : ℕ) : ∀ item ∈ instItems ir dot inst, item.Short := by
  have hspace : (TextItem.string " ").Short := by decide
  have hcomma : (TextItem.string ", ").Short := by decide
  have hresult : ∀ item ∈ resultItems ir inst, item.Short := by
    unfold resultItems
    split
    · have hpercent : (TextItem.string " %").Short ∧ (TextItem.string " = ").Short := by
        constructor <;> decide
      have htype : ∀ type, (TextItem.string (kDataTypeNames type)).Short := by
        intro type
        cases type <;> decide
      intro item hitem
      simp only [List.mem_cons, List.not_mem_nil, or_false] at hitem
      rcases hitem with rfl | rfl | rfl | rfl
      · exact htype _
      · exact hpercent.1
      · exact trivial
      · exact hpercent.2
    · exact fun _ hitem => absurd hitem List.not_mem_nil
  have htype : (TextItem.string (kInstNames (ir.insts inst).type)).Short := by
    show (stringBytes _).length ≤ 10 ∧ (0 : UInt8) ∉ stringBytes _
    cases (ir.insts inst).type <;> simp only [kInstNames] <;> decide
  have hparameters : ∀ item ∈ parameterItems (ir.insts inst).type, item.Short := by
    cases (ir.insts inst).type with
    | loadVar rId =>
        exact fun _ hitem => List.mem_singleton.mp hitem ▸ trivial
    | assignVar rId =>
        intro item hitem
        simp only [parameterItems, List.mem_cons, List.not_mem_nil, or_false] at hitem
        rcases hitem with rfl | rfl
        · exact trivial
        · exact hcomma
    | binary op =>
        intro item hitem
        simp only [parameterItems, List.mem_cons, List.not_mem_nil, or_false] at hitem
        rcases hitem with rfl | rfl
        · cases op <;> decide
        · exact hspace
    | phi => exact fun _ hitem => absurd hitem List.not_mem_nil
    | jump => exact fun _ hitem => absurd hitem List.not_mem_nil
    | jumpCond => exact fun _ hitem => absurd hitem List.not_mem_nil
    | ret => exact fun _ hitem => absurd hitem List.not_mem_nil
  have huse : ∀ use, ∀ item ∈ useItems ir use, item.Short := by
    have hname : ∀ value, ∀ item ∈ [TextItem.string "%", .name value], item.Short := by
      intro value item hitem
      simp only [List.mem_cons, List.not_mem_nil, or_false] at hitem
      rcases hitem with rfl | rfl
      · show (stringBytes _).length ≤ 10 ∧ (0 : UInt8) ∉ stringBytes _
        decide
      · exact trivial
    intro use
    match use with
    | none => exact fun _ hitem => absurd hitem List.not_mem_nil
    | some (.const c) =>
        exact fun _ hitem => List.mem_singleton.mp hitem ▸ trivial
    | some (.inst i) => exact hname _
    | some (.block b) => exact hname _
  intro item hitem
  simp only [instItems, List.mem_append, List.mem_cons, List.not_mem_nil, or_false] at hitem
  rcases hitem with (((hitem | rfl | rfl) | hitem) | hitem) | rfl
  · exact hresult item hitem
  · exact htype
  · exact hspace
  · exact hparameters item hitem
  · refine short_separated hcomma _ (fun items hitems => ?_) item hitem
    obtain ⟨use, -, rfl⟩ := List.mem_map.mp hitems
    exact huse use
  · exact short_newLine dot

theorem short_block (annotations : IrPrintAnnotations) (block : ℕ) :
    ∀ item ∈ blockItems ir dot annotations block, item.Short := by
  have hidom : ∀ item ∈ idomItems dot annotations block, item.Short := by
    unfold idomItems
    split
    · exact fun _ hitem => absurd hitem List.not_mem_nil
    · have hstrings : (TextItem.string "// idom[").Short ∧ (TextItem.string "] = ").Short := by
        constructor <;> decide
      intro item hitem
      simp only [List.mem_cons, List.not_mem_nil, or_false] at hitem
      rcases hitem with rfl | rfl | rfl | rfl | rfl
      · exact hstrings.1
      · exact trivial
      · exact hstrings.2
      · exact trivial
      · exact short_newLine dot
  have hfrontier : ∀ item ∈ frontierItems dot annotations block, item.Short := by
    unfold frontierItems
    split
    · exact fun _ hitem => absurd hitem List.not_mem_nil
    · have hstrings : (TextItem.string "// df[").Short ∧ (TextItem.string "] = [").Short ∧
          (TextItem.string " ,").Short ∧ (TextItem.string "]").Short := by
        refine ⟨?_, ?_, ?_, ?_⟩ <;> decide
      intro item hitem
      simp only [List.mem_append, List.mem_cons, List.not_mem_nil, or_false] at hitem
      rcases hitem with ((rfl | rfl | rfl) | hitem) | rfl | rfl
      · exact hstrings.1
      · exact trivial
      · exact hstrings.2.1
      · refine short_separated hstrings.2.2.1 _ (fun items hitems => ?_) item hitem
        obtain ⟨b, -, rfl⟩ := List.mem_map.mp hitems
        exact fun item hitem => List.mem_singleton.mp hitem ▸ trivial
      · exact hstrings.2.2.2
      · exact short_newLine dot
  intro item hitem
  simp only [blockItems, List.mem_append, List.mem_cons, List.not_mem_nil, or_false,
    List.mem_flatMap] at hitem
  rcases hitem with (((rfl | rfl | rfl | rfl) | hitem) | hitem) | ⟨inst, -, hitem⟩
  · show (stringBytes _).length ≤ 10 ∧ (0 : UInt8) ∉ stringBytes _
    decide
  · exact trivial
  · show (stringBytes _).length ≤ 10 ∧ (0 : UInt8) ∉ stringBytes _
    decide
  · exact short_newLine dot
  · exact hidom item hitem
  · exact hfrontier item hitem
  · exact short_inst ir dot inst item hitem

end Short

/-! ## How long it is -/

section Length

variable {name : Value → List UInt8} {items : List TextItem}

theorem noNull_render (hname : ∀ value, 0 ∉ name value)
    (hitems : ∀ item ∈ items, item.Short) : 0 ∉ renderText name items := by
  intro hmem
  obtain ⟨item, hitem, hbyte⟩ := List.mem_flatMap.mp hmem
  cases item with
  | text bytes => exact (hitems _ hitem).2 hbyte
  | number n => exact noNull_intText n hbyte
  | name value => exact hname value hbyte

theorem sum_lengths_textPushes (name : Value → List UInt8) (items : List TextItem) :
    ((textPushes name items).map List.length).sum = (renderText name items).length := by
  rw [← flatten_textPushes, List.length_flatten]

/-- The pushes of a text are short if the names are. -/
theorem length_le_of_mem_textPushes (hitems : ∀ item ∈ items, item.Short)
    (hname : ∀ value, (name value).length ≤ 500) :
    ∀ n ∈ (textPushes name items).map List.length, n ≤ 500 := by
  refine List.forall_mem_map.mpr fun push hpush => ?_
  obtain ⟨item, hitem, hmem⟩ := List.mem_flatMap.mp hpush
  cases item with
  | text bytes =>
      rw [List.mem_singleton.mp hmem]
      exact (hitems _ hitem).1.trans (by decide)
  | number n =>
      obtain ⟨c, -, rfl⟩ := List.mem_map.mp hmem
      exact (by decide : 1 ≤ 500)
  | name value =>
      rw [List.mem_singleton.mp hmem]
      exact hname value

/-- **A text with short names** fits if it has at most 2000 bytes. -/
theorem fitsBuffer_text_iff (hitems : ∀ item ∈ items, item.Short)
    (hname : ∀ value, (name value).length ≤ 500) :
    FitsBuffer ((textPushes name items).map List.length) ↔
      (renderText name items).length ≤ 2000 := by
  rw [fitsBuffer_iff_of_small (length_le_of_mem_textPushes hitems hname),
    sum_lengths_textPushes]

end Length

/-- The room that an item needs at most: a name that is given has at most 11 bytes. -/
def TextItem.room (names : ValueNames) : TextItem → ℕ
  | .text bytes => bytes.length
  | .number _ => 11
  | .name value => max 11 (names.name value).length

/-- The room that items need at most. -/
def textRoom (names : ValueNames) (items : List TextItem) : ℕ :=
  (items.map (TextItem.room names)).sum

theorem length_renderText_le (names : ValueNames) (items items' : List TextItem) :
    (renderText (names.after items).name items').length ≤ textRoom names items' := by
  unfold renderText textRoom
  rw [List.length_flatMap]
  refine List.sum_le_sum fun item _ => ?_
  cases item with
  | text bytes => exact Nat.le_refl _
  | number n => exact length_intText_le n
  | name value => exact names.length_name_after items value
