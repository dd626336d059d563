/-
# The names in the text of a function

The text of a function is the text of its reachable blocks under one naming of the values, for
a name that has been given stays.  The values that had no name are numbered by the first place
at which the text mentions them.

* `numbersNew` : how a text names the values that had no name;
* `functionDump_numbers` : `function_dump` ends exactly if the levels and the text of each block
  fit in its buffers and what it reads is there; then it prints the reachable blocks, once each,
  under this naming.
-/
import MCompiler.FunctionDump

open FlowGraph

/-! ## The numbering -/

namespace ValueNames

/-- The values without a name, in the order in which they come first. -/
def newValues (names : ValueNames) (values : List Value) : List Value :=
  (values.filter fun value => names.name value = []).eraseDups

/-- What is named in a text. -/
def newIn (names : ValueNames) (items : List TextItem) : List Value :=
  names.newValues (items.filterMap TextItem.value?)

variable {names : ValueNames} {value other : Value} {rest : List Value}

theorem newValues_of_named (h : names.name value ≠ []) :
    names.newValues (value :: rest) = names.newValues rest := by
  unfold newValues
  rw [List.filter_cons_of_neg (by simpa using h)]

theorem named_name_of_new (h : names.name value = []) :
    (names.named value).name value = intText names.valueNameCounter := by
  unfold named
  rw [if_neg (by simpa using h)]
  exact Function.update_self _ _ _

theorem named_counter_of_new (h : names.name value = []) :
    (names.named value).valueNameCounter = sizeAdd names.valueNameCounter 1 := by
  unfold named
  rw [if_neg (by simpa using h)]

theorem named_name_of_ne (h : other ≠ value) :
    (names.named value).name other = names.name other := by
  unfold named
  split
  · rfl
  · exact Function.update_of_ne h _ _

theorem newValues_of_new (h : names.name value = []) :
    names.newValues (value :: rest) = value :: (names.named value).newValues rest := by
  unfold newValues
  rw [List.filter_cons_of_pos (by simpa using h), List.eraseDups_cons, List.filter_filter]
  congr 2
  refine List.filter_congr fun other _ => ?_
  by_cases heq : other = value
  · subst heq
    simp [names.named_self]
  · simp [heq, named_name_of_ne heq]

theorem nameless_of_mem_newValues (values : List Value) : ∀ names : ValueNames,
    value ∈ names.newValues values → names.name value = [] := by
  induction values with
  | nil => exact fun _ h => absurd h List.not_mem_nil
  | cons other values ih =>
      intro names h
      by_cases hother : names.name other = []
      · rw [newValues_of_new hother] at h
        rcases List.mem_cons.mp h with rfl | h
        · exact hother
        · by_cases heq : value = other
          · exact heq ▸ hother
          · exact named_name_of_ne heq ▸ ih _ h
      · rw [newValues_of_named hother] at h
        exact ih _ h

end ValueNames

/-- A counter that has wrapped is read as the same `int`. -/
theorem intText_sizeAdd (n k j : ℕ) :
    intText ((sizeAdd n k : ℕ) + (j : ℤ)) = intText (n + k + j) := by
  have heq : Int32.ofInt ((sizeAdd n k : ℕ) + (j : ℤ)) = Int32.ofInt (n + k + j) := by
    rw [← Int32.toInt_inj, Int32.toInt_ofInt, Int32.toInt_ofInt]
    unfold sizeAdd Int.bmod
    push_cast
    omega
  unfold intText
  rw [heq]

/-- A numeral is that of one integer. -/
theorem IsIntNumeral.inj {n m : ℤ} {text : Range} (h : IsIntNumeral n text)
    (h' : IsIntNumeral m text) : n = m := by
  have hsign : ∀ {k : ℕ} {digits : Range}, ¬ IsNumeral k (byte '-' :: digits) :=
    fun hnumeral => absurd (hnumeral.digit _ List.mem_cons_self) (by decide)
  unfold IsIntNumeral at h h'
  split at h <;> split at h'
  · obtain ⟨digits, hdigits, hnumeral⟩ := h
    obtain ⟨digits', hdigits', hnumeral'⟩ := h'
    obtain rfl := (List.cons.inj (hdigits.symm.trans hdigits')).2
    have := hnumeral.inj hnumeral'
    omega
  · obtain ⟨digits, rfl, -⟩ := h
    exact absurd h' hsign
  · obtain ⟨digits, rfl, -⟩ := h'
    exact absurd h hsign
  · have := h.inj h'
    omega

/-- The names of two numbers that are less than `2 ^ 32` apart. -/
theorem intText_inj {c i j : ℕ} (hi : i < 2 ^ 32) (hj : j < 2 ^ 32)
    (h : intText (c + i) = intText (c + j)) : i = j := by
  have hi' := intText_isIntNumeral (c + i)
  rw [h] at hi'
  have heq := hi'.inj (intText_isIntNumeral (c + j))
  rw [Int32.toInt_ofInt, Int32.toInt_ofInt] at heq
  unfold Int.bmod at heq
  push_cast at heq
  omega

namespace ValueNames

/-- **The numbering.**  A value that had no name gets the number of its place among these. -/
theorem foldl_named_name (value : Value) (values : List Value) : ∀ names : ValueNames,
    (values.foldl named names).name value =
      if value ∈ names.newValues values then
        intText (names.valueNameCounter + (names.newValues values).idxOf value)
      else names.name value := by
  induction values with
  | nil => exact fun names => rfl
  | cons other values ih =>
      intro names
      rw [List.foldl_cons]
      by_cases hother : names.name other = []
      · rw [ih, newValues_of_new hother]
        by_cases heq : value = other
        · subst heq
          rw [if_neg fun hmem => names.named_self (nameless_of_mem_newValues _ _ hmem),
            if_pos List.mem_cons_self, named_name_of_new hother, List.idxOf_cons_self]
          simp
        · rw [named_name_of_ne heq, named_counter_of_new hother,
            List.idxOf_cons_ne _ (Ne.symm heq)]
          by_cases hmem : value ∈ (names.named other).newValues values
          · rw [if_pos hmem, if_pos (List.mem_cons_of_mem _ hmem), intText_sizeAdd]
            congr 1
            push_cast
            omega
          · rw [if_neg hmem, if_neg fun h => (List.mem_cons.mp h).elim heq hmem]
      · rw [names.named_of_named hother, newValues_of_named hother]
        exact ih names

end ValueNames

/-- The values of a text that had no name are numbered in the order in which they come
first, the other names stay. -/
structure NumbersNew (names : ValueNames) (items : List TextItem) : Prop where
  name : ∀ value, (names.after items).name value =
    if value ∈ names.newIn items then
      intText (names.valueNameCounter + (names.newIn items).idxOf value)
    else names.name value
  distinct : (names.newIn items).length ≤ 2 ^ 32 →
    ∀ value ∈ names.newIn items, ∀ other ∈ names.newIn items,
      (names.after items).name value = (names.after items).name other → value = other

theorem numbersNew (names : ValueNames) (items : List TextItem) : NumbersNew names items := by
  have hname : ∀ value, (names.after items).name value =
      if value ∈ names.newIn items then
        intText (names.valueNameCounter + (names.newIn items).idxOf value)
      else names.name value := fun value => ValueNames.foldl_named_name value _ names
  refine ⟨hname, fun hcount value hvalue other hother h => ?_⟩
  rw [hname, hname, if_pos hvalue, if_pos hother] at h
  have hi := List.idxOf_lt_length_of_mem hvalue
  have hj := List.idxOf_lt_length_of_mem hother
  have heq := intText_inj (by omega) (by omega) h
  exact (List.idxOf_inj hvalue).mp heq

/-! ## The text of a function -/

/-- The text of a function, block by block. -/
def functionItems (ir : Ir) (annotations : IrPrintAnnotations) (order : List ℕ) :
    List TextItem :=
  order.flatMap (blockItems ir false annotations)

/-- A short text without a null byte is printed as it is. -/
theorem printRange_text {bytes : List UInt8} (hlength : bytes.length ≤ 2000)
    (hnull : 0 ∉ bytes) : printRange bytes = some bytes := by
  have hint : toInt bytes.length = bytes.length := by
    unfold toInt Int.bmod
    push_cast
    omega
  have hall : ∀ c ∈ bytes, decide (c ≠ 0) = true :=
    fun c hc => decide_eq_true fun h => hnull (h ▸ hc)
  unfold printRange
  rw [hint, if_pos (by omega), Int.toNat_natCast, List.take_length,
    List.takeWhile_eq_self_iff.mpr hall]

section Names

variable {ir : Ir} {annotations : IrPrintAnnotations} {name : Value → List UInt8}
  (hnull : ∀ value, 0 ∉ name value)
include hnull

theorem printRange_block {block : ℕ}
    (hlength : (renderText name (blockItems ir false annotations block)).length ≤ 2000) :
    printRange (renderText name (blockItems ir false annotations block)) =
      some (renderText name (blockItems ir false annotations block)) :=
  printRange_text hlength (noNull_render hnull (short_block ir false annotations block))

/-- **A block can be printed** if what is read of it is there and its text has at most 2000
bytes. -/
theorem printable_iff (hname : ∀ value, (name value).length ≤ 500) {block : ℕ} :
    Printable ir annotations name block ↔ Dumpable ir annotations block ∧
      (renderText name (blockItems ir false annotations block)).length ≤ 2000 := by
  have hfits := fitsBuffer_text_iff (short_block ir false annotations block) hname
  constructor
  · intro h
    exact ⟨h.dumpable, hfits.mp h.fits⟩
  · rintro ⟨hdumpable, hlength⟩
    refine ⟨hdumpable, hfits.mpr hlength, ?_⟩
    by_contra hneg
    have hprinted := printRange_block hnull hlength
    rw [printRange, if_neg hneg] at hprinted
    cases hprinted

end Names

/-- **The text of a function.**  If finitely many blocks can be reached, `function_dump` ends
exactly if the levels fit in its buffers, what it reads is there, and the text of each block has
at most 2000 bytes.  Then it prints the reachable blocks, once each and in the order of the
search, under one naming: the values that had no name are numbered in the order in which the
text mentions them, from the counter of the function on, and no two of up to `2 ^ 32` such
values get the same name. -/
theorem functionDump_numbers (ir : Ir) (entry : ℕ) (annotations : IrPrintAnnotations)
    (names : ValueNames) (blocks : List ℕ)
    (hblocks : ∀ b, Reachable (cfgEdge ir) entry b → b ∈ blocks)
    (hnull : ∀ value, 0 ∉ names.name value)
    (hname : ∀ value, (names.name value).length ≤ 500) :
    ∃ order : List ℕ, VisitsOnce ir entry order ∧
      LevelSearch.IsOrder (blockSuccessors ir) entry order ∧
      NumbersNew names (functionItems ir annotations order) ∧
      let after := names.after (functionItems ir annotations order)
      let text b := renderText after.name (blockItems ir false annotations b)
      ((∃ fuel s, functionDump ir annotations fuel entry names = some s) ↔
        LevelSearch.LevelsWithin (blockSuccessors ir) entry 250 ∧
          ∀ b ∈ order, Dumpable ir annotations b ∧ (text b).length ≤ 2000) ∧
      ∀ fuel s, functionDump ir annotations fuel entry names = some s →
        s.names = after ∧ s.printed = order.map fun b => (b, text b ++ stringBytes "\n") := by
  obtain ⟨order, hnodup, hmem, hsearch⟩ := LevelSearch.search_visits entry blocks hblocks
  have hfuel := hsearch (blocks.length + 2) (Nat.le_refl _)
  have horder : ∀ {fuel s}, functionDump ir annotations fuel entry names = some s →
      LevelSearch.search (blockSuccessors ir) fuel [entry] [] = some order := by
    intro fuel s hs
    obtain ⟨order', horder'⟩ := exists_search_of_dumpLoop hs
    obtain rfl := LevelSearch.IsOrder.eq ⟨_, hfuel⟩ ⟨_, horder'⟩
    exact horder'
  have hnullAfter : ∀ value, 0 ∉ (dumpNames ir annotations names order false).name value :=
    fun value => noNull_after hnull _ value
  have hnameAfter : ∀ value,
      ((dumpNames ir annotations names order false).name value).length ≤ 500 := fun value =>
    (length_dumpNames ir annotations names order false value).trans
      (Nat.max_le.mpr ⟨by decide, hname value⟩)
  refine ⟨order, ⟨hnodup, hmem⟩, ⟨_, hfuel⟩, numbersNew _ _, ?_, ?_⟩
  · have hprint : (∀ b ∈ order,
        Printable ir annotations (dumpNames ir annotations names order false).name b) ↔ _ :=
      forall₂_congr fun b _ => printable_iff hnullAfter hnameAfter
    constructor
    · rintro ⟨fuel, s, hs⟩
      obtain ⟨hlevels, hblocks⟩ := (functionDump_iff (horder hs)).1.mp ⟨s, hs⟩
      exact ⟨hlevels, hprint.mp hblocks⟩
    · rintro ⟨hlevels, hblocks⟩
      obtain ⟨s, hs⟩ := (functionDump_iff hfuel).1.mpr ⟨hlevels, hprint.mpr hblocks⟩
      exact ⟨_, s, hs⟩
  · intro fuel s hs
    obtain ⟨-, hblocks⟩ := (functionDump_iff (horder hs)).1.mp ⟨s, hs⟩
    obtain ⟨hnames, hprinted⟩ := (functionDump_iff (horder hs)).2 s hs
    refine ⟨hnames, hprinted.trans (List.map_congr_left fun b hb => ?_)⟩
    have hlength := ((printable_iff hnullAfter hnameAfter).mp (hblocks b hb)).2
    refine Prod.ext rfl ?_
    show (printRange _).getD [] ++ _ = _
    rw [show printRange (renderText (names.after (order.flatMap
        (blockItems ir false annotations))).name (blockItems ir false annotations b)) = _ from
      printRange_block hnullAfter hlength]
    rfl

/-- The text of two nested conditionals, with the dominators and the frontiers. -/
theorem functionDump_numbers_nestedJoins : ∃ order fuel s, VisitsOnce nestedJoins 0 order ∧
    functionDump nestedJoins ⟨some nestedDoms, some nestedFrontiers⟩ fuel 0 ⟨fun _ => [], 0⟩ =
      some s ∧
    s.printed = order.map fun b => (b, renderText s.names.name
      (blockItems nestedJoins false ⟨some nestedDoms, some nestedFrontiers⟩ b) ++
        stringBytes "\n") := by
  have hset : ∀ b < 5, ∀ i ∈ nestedJoins.blocks b, none ∉ (nestedJoins.insts i).uses := by
    decide
  have hdoms : ∀ b < 5, dominatorsGetIDom nestedDoms b ≠ none := by decide
  have hroom : ∀ b < 5, textRoom ⟨fun _ => [], 0⟩ (blockItems nestedJoins false
      ⟨some nestedDoms, some nestedFrontiers⟩ b) ≤ 2000 := by decide
  have hsearch : LevelSearch.search (blockSuccessors nestedJoins) 7 [0] [] =
      some [0, 1, 4, 2, 3] := by decide
  obtain ⟨order, hvisits, -, -, hends, hprints⟩ := functionDump_numbers nestedJoins 0
    ⟨some nestedDoms, some nestedFrontiers⟩ ⟨fun _ => [], 0⟩ (List.range 5)
    (fun _ hb => List.mem_range.mpr (reachable_nestedJoins.mp hb)) (fun _ => List.not_mem_nil)
    fun _ => Nat.zero_le _
  have hlevels : LevelSearch.LevelsWithin (blockSuccessors nestedJoins) 0 250 :=
    (LevelSearch.nextLevels_iff hsearch).mp (by decide)
  obtain ⟨fuel, s, hs⟩ := hends.mpr ⟨hlevels, fun b hb => by
    have hlt := reachable_nestedJoins.mp ((hvisits.mem b).mp hb)
    refine ⟨⟨hset b hlt, fun doms hmem => ?_⟩,
      (length_renderText_le _ _ _).trans (hroom b hlt)⟩
    rw [← Option.some.inj hmem]
    exact hdoms b hlt⟩
  obtain ⟨hnames, hprinted⟩ := hprints fuel s hs
  refine ⟨order, fuel, s, hvisits, hs, ?_⟩
  rw [hprinted, hnames]
