/-
# The text of a function (`ir.c`)

`function_dump` prints the blocks of a function.  A value gets its name when it is first
printed: `value_getName` counts up `valueNameCounter`, and `format_range` writes the number.
An instruction is printed with its result, its type, its parameters and the names of its
operands; constants are printed as numbers.

* `prints_block` : `_block_dump` writes the items of the block, its name, the annotations and
  the instructions, under the names that the values have afterwards;
* `blockDumpd_iff` : it needs the operands of the block and, for the annotation, its dominator;
* `DumpsEach.foldlM_iff` : dumps one after the other name the values as one text of all of them.
-/
import MCompiler.DecimalNumerals
import MCompiler.DomFrontiers
import MCompiler.Formatting

/-! ## Names of values -/

/-- The names of the values of a function and its `valueNameCounter`.  A value without a name
has an empty one; the name of a new block is indeterminate. -/
structure ValueNames where
  name : Value → List UInt8
  valueNameCounter : ℕ

/-- `value_getName`; a constant has no function that could name it. -/
def valueGetName (names : ValueNames) (value : Value) : Option (ValueNames × List UInt8) :=
  if names.name value ≠ [] then some (names, names.name value)
  else
    match value with
    | .const _ => none
    | .inst _ | .block _ => do
        let name ← formatRange "\x7bint\x7d" [intArg names.valueNameCounter]
        some (⟨Function.update names.name value name, sizeAdd names.valueNameCounter 1⟩, name)

/-! ## Printing -/

/-- The optional parts of a dump. -/
structure IrPrintAnnotations where
  doms : Option Dominators
  df : Option DomFrontiers

/-- The names and the buffer that a dump is written to. -/
structure DumpText where
  names : ValueNames
  buffer : LoggedBuffer

/-- `kBinaryOpNames`. -/
def kBinaryOpNames : BinaryOps → String
  | .add => "add"
  | .sub => "sub"
  | .mul => "mul"
  | .div => "div"
  | .equals => "equals"
  | .less => "less"
  | .greater => "greater"
  | .lessEq => "less_eq"
  | .greaterEq => "greater_eq"

/-- `kDataTypeNames`. -/
def kDataTypeNames : DataType → String
  | .void => "void"
  | .int64 => "int64"
  | .ptr => "ptr"
  | .block => "block"

/-- `kInstNames`. -/
def kInstNames : InstType → String
  | .phi => "phi"
  | .loadVar _ => "load_var"
  | .assignVar _ => "assign_var"
  | .binary _ => "binary"
  | .jump => "jump"
  | .jumpCond => "jump_cond"
  | .ret => "return"

namespace DumpText

/-- `format_dbuffer` on the buffer of the dump. -/
def format (s : DumpText) (fmt : String) (args : List FormatArg) : Option DumpText :=
  (formatDbuffer fmt s.buffer args).map fun buffer => { s with buffer }

/-- `dbuffer_pushStr` on the buffer of the dump. -/
def pushStr (s : DumpText) (string : String) : DumpText :=
  { s with buffer := s.buffer.pushStr (stringBytes string) }

/-- `value_getName`, with what is done with the name. -/
def withName (s : DumpText) (value : Value) (k : List UInt8 → DumpText → Option DumpText) :
    Option DumpText := do
  let (names, name) ← valueGetName s.names value
  k name { s with names }

/-- `_B_NEW_LINE`. -/
def newLine (s : DumpText) (dot : Bool) : DumpText := s.pushStr (if dot then "\\l" else "\n")

/-- A loop that prints the items of a list, with a separator between them. -/
def separated {α : Type} (separator : String) (dump : α → DumpText → Option DumpText) :
    List α → DumpText → Option DumpText
  | [], s => some s
  | x :: rest, s => do
      let s ← dump x s
      separated separator dump rest (if rest = [] then s else s.pushStr separator)

end DumpText

section Dump

variable (ir : Ir) (dot : Bool)

/-- The switch of `inst_dumpd` over the type of an operand; a use that is not set is a null
pointer. -/
def dumpUse (use : Option Value) (s : DumpText) : Option DumpText :=
  match use with
  | none => none
  | some (.const c) => s.format "\x7bint\x7d" [intArg (ir.consts c).toInt]
  | some value =>
      s.withName value fun vName s => s.format "%\x7brange\x7d" [.range vName]

/-- The result of an instruction that has one. -/
def dumpResult (inst : ℕ) (s : DumpText) : Option DumpText :=
  if (ir.insts inst).dataType ≠ .void then
    s.withName (.inst inst) fun vName s =>
      s.format "\x7bstr\x7d %\x7brange\x7d = "
        [.str (stringBytes (kDataTypeNames (ir.insts inst).dataType)), .range vName]
  else some s

/-- The switch of `inst_dumpd` over the parameters of an instruction. -/
def dumpParameters (type : InstType) (s : DumpText) : Option DumpText :=
  match type with
  | .loadVar rId => s.format "\x7bint\x7d" [intArg rId]
  | .assignVar rId => s.format "\x7bint\x7d, " [intArg rId]
  | .binary op => s.format "\x7bstr\x7d " [.str (stringBytes (kBinaryOpNames op))]
  | .phi | .jump | .jumpCond | .ret => some s

/-- `inst_dumpd`. -/
def instDumpd (inst : ℕ) (s : DumpText) : Option DumpText := do
  let s ← dumpResult ir inst s
  let s ← s.format "\x7bstr\x7d " [.str (stringBytes (kInstNames (ir.insts inst).type))]
  let s ← dumpParameters (ir.insts inst).type s
  let s ← DumpText.separated ", " (dumpUse ir) (ir.insts inst).uses s
  some (s.newLine dot)

/-- The loop over the instructions of a block. -/
def dumpInsts : List ℕ → DumpText → Option DumpText
  | [], s => some s
  | inst :: rest, s => do
      let s ← instDumpd ir dot inst s
      dumpInsts rest s

/-- The dominator of a block, if the dominators are to be printed. -/
def dumpIDom (annotations : IrPrintAnnotations) (block : ℕ) (bName : List UInt8)
    (s : DumpText) : Option DumpText :=
  match annotations.doms with
  | none => some s
  | some doms => do
      let dominator ← dominatorsGetIDom doms block
      let s ← s.withName (.block dominator) fun dominatorName s =>
        s.format "// idom[\x7brange\x7d] = \x7brange\x7d" [.range bName, .range dominatorName]
      some (s.newLine dot)

/-- The dominance frontier of a block, if the frontiers are to be printed. -/
def dumpFrontier (annotations : IrPrintAnnotations) (block : ℕ) (bName : List UInt8)
    (s : DumpText) : Option DumpText :=
  match annotations.df with
  | none => some s
  | some df => do
      let s ← s.format "// df[\x7brange\x7d] = [" [.range bName]
      let s ← DumpText.separated " ," (fun df s =>
        s.withName (.block df) fun dfName s => s.format "\x7brange\x7d" [.range dfName])
        (domfrontiersGet df block) s
      some ((s.pushStr "]").newLine dot)

/-- `_block_dump`. -/
def blockDumpd (annotations : IrPrintAnnotations) (block : ℕ) (s : DumpText) :
    Option DumpText :=
  s.withName (.block block) fun bName s => do
    let s ← s.format "!\x7brange\x7d:" [.range bName]
    let s ← dumpIDom dot annotations block bName (s.newLine dot)
    let s ← dumpFrontier dot annotations block bName s
    dumpInsts ir dot (ir.blocks block) s

end Dump

/-- `printf` of `%.*s`: the bytes before the first null byte.  The precision is an `int`; a
negative one would be ignored, and bytes read beyond the usage. -/
def printRange (bytes : List UInt8) : Option (List UInt8) :=
  if 0 ≤ toInt bytes.length then
    some ((bytes.take (toInt bytes.length).toNat).takeWhile (· ≠ 0))
  else none

/-! ## What the text says -/

/-- The numeral of an integer that is read as an `int`. -/
def intText (number : ℤ) : List UInt8 := (Directive.int (Int32.ofInt number)).rendering

/-- An item of a text: bytes, an integer, or the name of a value. -/
inductive TextItem where
  | text (bytes : List UInt8)
  | number (number : ℤ)
  | name (value : Value)
  deriving DecidableEq

/-- An item, when the values have these names. -/
def TextItem.render (name : Value → List UInt8) : TextItem → List UInt8
  | .text bytes => bytes
  | .number n => intText n
  | .name value => name value

/-- The items, when the values have these names. -/
def renderText (name : Value → List UInt8) (items : List TextItem) : List UInt8 :=
  items.flatMap (TextItem.render name)

/-- The pushes that write an item: a number is written digit by digit. -/
def TextItem.pushes (name : Value → List UInt8) : TextItem → List (List UInt8)
  | .text bytes => [bytes]
  | .number n => LoggedBuffer.chars (intText n)
  | .name value => [name value]

/-- The pushes that write the items. -/
def textPushes (name : Value → List UInt8) (items : List TextItem) : List (List UInt8) :=
  items.flatMap (TextItem.pushes name)

/-- The value that an item names. -/
def TextItem.value? : TextItem → Option Value
  | .text _ => none
  | .number _ => none
  | .name value => some value

/-- A string as an item. -/
def TextItem.string (string : String) : TextItem := .text (stringBytes string)

/-- The items of a list of lists, with a separator between these. -/
def separatedItems (separator : String) : List (List TextItem) → List TextItem
  | [] => []
  | items :: rest =>
      items ++ (if rest = [] then [] else [.string separator]) ++ separatedItems separator rest

section Items

variable (ir : Ir) (dot : Bool)

/-- The end of a line. -/
def newLineItem : TextItem := .string (if dot then "\\l" else "\n")

/-- An operand. -/
def useItems : Option Value → List TextItem
  | none => []
  | some (.const c) => [.number (ir.consts c).toInt]
  | some value => [.string "%", .name value]

/-- The result of an instruction that has one. -/
def resultItems (inst : ℕ) : List TextItem :=
  if (ir.insts inst).dataType ≠ .void then
    [.string (kDataTypeNames (ir.insts inst).dataType), .string " %", .name (.inst inst),
      .string " = "]
  else []

/-- The parameters of an instruction. -/
def parameterItems : InstType → List TextItem
  | .loadVar rId => [.number rId]
  | .assignVar rId => [.number rId, .string ", "]
  | .binary op => [.string (kBinaryOpNames op), .string " "]
  | .phi | .jump | .jumpCond | .ret => []

/-- An instruction. -/
def instItems (inst : ℕ) : List TextItem :=
  resultItems ir inst ++ [.string (kInstNames (ir.insts inst).type), .string " "] ++
    parameterItems (ir.insts inst).type ++
    separatedItems ", " ((ir.insts inst).uses.map (useItems ir)) ++ [newLineItem dot]

/-- The dominator of a block. -/
def idomItems (annotations : IrPrintAnnotations) (block : ℕ) : List TextItem :=
  match annotations.doms.bind (dominatorsGetIDom · block) with
  | none => []
  | some dominator =>
      [.string "// idom[", .name (.block block), .string "] = ", .name (.block dominator),
        newLineItem dot]

/-- The dominance frontier of a block. -/
def frontierItems (annotations : IrPrintAnnotations) (block : ℕ) : List TextItem :=
  match annotations.df with
  | none => []
  | some df =>
      [.string "// df[", .name (.block block), .string "] = ["] ++
        separatedItems " ," ((domfrontiersGet df block).map fun b => [.name (.block b)]) ++
        [.string "]", newLineItem dot]

/-- A block. -/
def blockItems (annotations : IrPrintAnnotations) (block : ℕ) : List TextItem :=
  [.string "!", .name (.block block), .string ":", newLineItem dot] ++
    idomItems dot annotations block ++ frontierItems dot annotations block ++
    (ir.blocks block).flatMap (instItems ir dot)

end Items

/-! ## Naming -/

namespace ValueNames

/-- The names after a value of the function has been asked for its name. -/
def named (names : ValueNames) (value : Value) : ValueNames :=
  if names.name value ≠ [] then names
  else
    ⟨Function.update names.name value (intText names.valueNameCounter),
      sizeAdd names.valueNameCounter 1⟩

/-- The names after these items have been printed. -/
def after (names : ValueNames) (items : List TextItem) : ValueNames :=
  (items.filterMap TextItem.value?).foldl named names

end ValueNames

theorem intText_isIntNumeral (number : ℤ) :
    IsIntNumeral (Int32.ofInt number).toInt (intText number) := by
  obtain ⟨data, hdata, hnumeral, -⟩ := intNumeral (Int32.ofInt number)
  obtain rfl := Option.some.inj hdata
  exact hnumeral

theorem intText_ne_nil (number : ℤ) : intText number ≠ [] := by
  have hnumeral := intText_isIntNumeral number
  unfold IsIntNumeral at hnumeral
  split at hnumeral
  · obtain ⟨digits, hdigits, -⟩ := hnumeral
    rw [hdigits]
    exact List.cons_ne_nil _ _
  · exact hnumeral.ne_nil

namespace ValueNames

variable (names : ValueNames) {value other : Value}

theorem named_of_named (h : names.name value ≠ []) : names.named value = names := if_pos h

theorem named_self : (names.named value).name value ≠ [] := by
  unfold named
  split
  · assumption
  · show Function.update names.name value (intText names.valueNameCounter) value ≠ []
    rw [Function.update_self]
    exact intText_ne_nil _

/-- A name stays. -/
theorem named_keeps (h : names.name value ≠ []) :
    (names.named other).name value = names.name value := by
  unfold named
  split
  · rfl
  · refine Function.update_of_ne ?_ _ _
    rintro rfl
    contradiction

theorem foldl_named_keeps (values : List Value) : ∀ names : ValueNames,
    names.name value ≠ [] → (values.foldl named names).name value = names.name value := by
  induction values with
  | nil => exact fun _ _ => rfl
  | cons other values ih =>
      intro names h
      have hone : (names.named other).name value = names.name value := names.named_keeps h
      rw [List.foldl_cons, ih _ (by rw [hone]; exact h), hone]

theorem foldl_named_mem (values : List Value) : ∀ names : ValueNames, value ∈ values →
    (values.foldl named names).name value ≠ [] := by
  induction values with
  | nil => exact fun _ h => absurd h List.not_mem_nil
  | cons other values ih =>
      intro names h
      rcases List.mem_cons.mp h with rfl | h
      · rw [List.foldl_cons, foldl_named_keeps values _ names.named_self]
        exact names.named_self
      · exact ih _ h

theorem after_nil : names.after [] = names := rfl

theorem after_append (items items' : List TextItem) :
    names.after (items ++ items') = (names.after items).after items' := by
  unfold after
  rw [List.filterMap_append, List.foldl_append]

theorem name_stable (value : Value) (more : List TextItem) :
    ((names.after [.name value]).after more).name value =
      (names.after [.name value]).name value :=
  foldl_named_keeps _ _ names.named_self

/-- The names of the items printed stay. -/
theorem pushes_stable (items items' : List TextItem) :
    textPushes ((names.after items).after items').name items =
      textPushes (names.after items).name items := by
  unfold textPushes
  refine List.flatMap_congr fun item hitem => ?_
  cases item with
  | text bytes => rfl
  | number n => rfl
  | name value =>
      have hmem : value ∈ items.filterMap TextItem.value? :=
        List.mem_filterMap.mpr ⟨_, hitem, rfl⟩
      exact congrArg (fun bytes => [bytes])
        (foldl_named_keeps _ _ (foldl_named_mem _ names hmem))

end ValueNames

theorem textPushes_append (name : Value → List UInt8) (items items' : List TextItem) :
    textPushes name (items ++ items') = textPushes name items ++ textPushes name items' :=
  List.flatMap_append

theorem flatten_textPushes (name : Value → List UInt8) (items : List TextItem) :
    (textPushes name items).flatten = renderText name items := by
  induction items with
  | nil => rfl
  | cons item items ih =>
      have hitem : (item.pushes name).flatten = item.render name := by
        cases item with
        | text bytes => exact List.append_nil _
        | number n => exact LoggedBuffer.flatten_chars _
        | name value => exact List.append_nil _
      rw [textPushes, List.flatMap_cons, List.flatten_append, hitem]
      exact congrArg (item.render name ++ ·) ih

theorem ValueNames.render_stable (names : ValueNames) (items items' : List TextItem) :
    renderText ((names.after items).after items').name items =
      renderText (names.after items).name items := by
  rw [← flatten_textPushes, names.pushes_stable, flatten_textPushes]

/-! ## The name of a value -/

theorem length_intText_le (number : ℤ) : (intText number).length ≤ 11 := by
  obtain ⟨data, hdata, -, hlength⟩ := intNumeral (Int32.ofInt number)
  obtain rfl := Option.some.inj hdata
  exact hlength

/-- The name that `format_range` writes. -/
theorem formatRange_int (number : ℤ) :
    formatRange "\x7bint\x7d" [intArg number] = some (intText number) := by
  have hlength := length_intText_le number
  have hpushes : FormatPiece.pushes [] [.directive (.int (Int32.ofInt number))] =
      LoggedBuffer.chars (intText number) := List.append_nil _
  have hfmt : "\x7bint\x7d".toList.map byte =
      [FormatPiece.directive (.int (Int32.ofInt number))].flatMap FormatPiece.source := rfl
  obtain ⟨b, hb, hwritten⟩ := formatDbuffer_pieces _ hfmt ⟨dbufferInitSize 1000, []⟩
  have hb' : formatDbuffer "\x7bint\x7d" ⟨dbufferInitSize 1000, []⟩ [intArg number] =
    some b := hb
  rw [hpushes] at hwritten
  have hgood : b.d.Good := by
    rw [hwritten.good_iff dbufferInit_empty, LoggedBuffer.lengths_chars,
      fitsBuffer_iff_of_small fun n hn => (List.eq_of_mem_replicate hn).trans_le (by decide),
      List.sum_replicate_nat, Nat.mul_one]
    omega
  unfold formatRange
  rw [hb', Option.map_some, hwritten.contents dbufferInit_empty hgood,
    LoggedBuffer.flatten_chars]

theorem valueGetName_eq (names : ValueNames) {value : Value} (hvalue : ∀ c, value ≠ .const c) :
    valueGetName names value =
      some (names.named value, (names.named value).name value) := by
  unfold valueGetName
  by_cases h : names.name value ≠ []
  · rw [if_pos h, names.named_of_named h]
  · rw [if_neg h]
    have hnamed : names.named value = ⟨Function.update names.name value
        (intText names.valueNameCounter), sizeAdd names.valueNameCounter 1⟩ := if_neg h
    have hself : (names.named value).name value = intText names.valueNameCounter := by
      rw [hnamed]
      exact Function.update_self _ _ _
    rw [hself, hnamed]
    cases value with
    | const c => exact absurd rfl (hvalue c)
    | inst i => simp only [formatRange_int, Option.bind_eq_bind, Option.bind_some]
    | block b => simp only [formatRange_int, Option.bind_eq_bind, Option.bind_some]

/-! ## What a dump prints -/

/-- The dump writes the items, under the names afterwards. -/
def Prints (s : DumpText) (items : List TextItem) (result : Option DumpText) : Prop :=
  ∃ s', result = some s' ∧ s'.names = s.names.after items ∧
    LoggedBuffer.Written s.buffer s'.buffer (textPushes s'.names.name items)

section Printing

variable {s : DumpText} {items items' : List TextItem} {result : Option DumpText}

theorem prints_nil (s : DumpText) : Prints s [] (some s) := ⟨s, rfl, rfl, .refl _⟩

/-- Two parts, one after the other. -/
theorem Prints.bind (h : Prints s items result) {k : DumpText → Option DumpText}
    (hk : ∀ s', s'.names = s.names.after items → Prints s' items' (k s')) :
    Prints s (items ++ items') (result.bind k) := by
  obtain ⟨s₁, hresult, hnames, hwritten⟩ := h
  obtain ⟨s₂, hs₂, hnames₂, hwritten₂⟩ := hk s₁ hnames
  refine ⟨s₂, ?_, ?_, ?_⟩
  · rw [hresult]
    exact hs₂
  · rw [hnames₂, hnames, s.names.after_append]
  · have hstable : textPushes s₂.names.name items = textPushes s₁.names.name items := by
      rw [hnames₂, hnames, s.names.pushes_stable]
    rw [textPushes_append, hstable]
    exact hwritten.trans hwritten₂

/-- Text without a format. -/
theorem prints_pushStr (s : DumpText) (string : String) :
    Prints s [.string string] (some (s.pushStr string)) :=
  ⟨_, rfl, rfl, s.buffer.written_pushData _⟩

/-- A part that starts with asking for a name that it prints. -/
theorem prints_withName {value : Value} (hvalue : ∀ c, value ≠ .const c)
    (hfirst : (s.names.named value).after items = s.names.after items)
    {k : List UInt8 → DumpText → Option DumpText}
    (hk : Prints { s with names := s.names.named value } items
      (k ((s.names.named value).name value) { s with names := s.names.named value })) :
    Prints s items (s.withName value k) := by
  obtain ⟨s', hs', hnames, hwritten⟩ := hk
  refine ⟨s', ?_, hnames.trans hfirst, hwritten⟩
  unfold DumpText.withName
  rw [valueGetName_eq s.names hvalue]
  exact hs'

/-- A format that prints names which the values have. -/
theorem prints_format (pieces : List FormatPiece) {fmt : String} {args : List FormatArg}
    (hfmt : fmt.toList.map byte = pieces.flatMap FormatPiece.source)
    (hargs : args = pieces.flatMap FormatPiece.args)
    (hnames : s.names.after items = s.names)
    (hpushes : textPushes s.names.name items = FormatPiece.pushes [] pieces) :
    Prints s items (s.format fmt args) := by
  obtain ⟨b, hb, hwritten⟩ := formatDbuffer_pieces pieces hfmt s.buffer
  refine ⟨{ s with buffer := b }, ?_, hnames.symm, ?_⟩
  · unfold DumpText.format
    rw [hargs, hb]
    rfl
  · rw [hpushes]
    exact hwritten

theorem prints_newLine (s : DumpText) (dot : Bool) :
    Prints s [newLineItem dot] (some (s.newLine dot)) := prints_pushStr s _

/-- A loop with a separator. -/
theorem prints_separated {α : Type} {separator : String}
    {dump : α → DumpText → Option DumpText} {itemsOf : α → List TextItem} (xs : List α) :
    (∀ x ∈ xs, ∀ s, Prints s (itemsOf x) (dump x s)) → ∀ s,
      Prints s (separatedItems separator (xs.map itemsOf))
        (DumpText.separated separator dump xs s) := by
  induction xs with
  | nil => exact fun _ s => prints_nil s
  | cons x rest ih =>
      intro h s
      rw [List.map_cons, separatedItems, List.append_assoc]
      refine (h x List.mem_cons_self s).bind fun s' _ => ?_
      have hrest := ih fun y hy => h y (List.mem_cons_of_mem _ hy)
      by_cases hlast : rest = []
      · subst hlast
        exact hrest s'
      · have hmap : ¬ rest.map itemsOf = [] := fun hnil => hlast (List.map_eq_nil_iff.mp hnil)
        rw [if_neg hlast, if_neg hmap]
        exact (prints_pushStr s' separator).bind fun s'' _ => hrest s''

end Printing

/-! ## The parts of a block -/

section Parts

variable (ir : Ir) (dot : Bool)

/-- The name of a value as an operand. -/
theorem prints_operand (s : DumpText) {value : Value} (hvalue : ∀ c, value ≠ .const c) :
    Prints s [.string "%", .name value]
      (s.withName value fun vName s => s.format "%\x7brange\x7d" [.range vName]) := by
  have hnamed : (s.names.named value).named value = s.names.named value :=
    (s.names.named value).named_of_named s.names.named_self
  exact prints_withName hvalue (by exact hnamed)
    (prints_format [.literal [byte '%'] (by decide), .directive (.range _)] rfl rfl
      (by exact hnamed) rfl)

/-- An operand that is set. -/
theorem prints_use (value : Value) (s : DumpText) :
    Prints s (useItems ir (some value)) (dumpUse ir (some value) s) := by
  cases value with
  | const c =>
      exact prints_format [.directive (.int (Int32.ofInt (ir.consts c).toInt))] rfl rfl rfl rfl
  | inst i => exact prints_operand s fun c => Value.noConfusion
  | block b => exact prints_operand s fun c => Value.noConfusion

theorem prints_result (inst : ℕ) (s : DumpText) :
    Prints s (resultItems ir inst) (dumpResult ir inst s) := by
  unfold resultItems dumpResult
  by_cases hvoid : (ir.insts inst).dataType ≠ .void
  · rw [if_pos hvoid, if_pos hvoid]
    refine prints_withName (fun c => by simp) ?_ ?_
    · exact (s.names.named _).named_of_named s.names.named_self
    · exact prints_format [.directive (.str (stringBytes (kDataTypeNames _))),
          .literal (" %".toList.map byte) (by decide), .directive (.range _),
          .literal (" = ".toList.map byte) (by decide)] rfl rfl
        ((s.names.named _).named_of_named s.names.named_self) rfl
  · rw [if_neg hvoid, if_neg hvoid]
    exact prints_nil s

theorem prints_parameters (type : InstType) (s : DumpText) :
    Prints s (parameterItems type) (dumpParameters type s) := by
  cases type with
  | phi => exact prints_nil s
  | loadVar rId => exact prints_format [.directive (.int (Int32.ofInt rId))] rfl rfl rfl rfl
  | assignVar rId =>
      exact prints_format [.directive (.int (Int32.ofInt rId)),
        .literal (", ".toList.map byte) (by decide)] rfl rfl rfl rfl
  | binary op =>
      exact prints_format [.directive (.str (stringBytes (kBinaryOpNames op))),
        .literal (" ".toList.map byte) (by decide)] rfl rfl rfl rfl
  | jump => exact prints_nil s
  | jumpCond => exact prints_nil s
  | ret => exact prints_nil s

/-- **An instruction**: its result, its type, its parameters and its operands. -/
theorem prints_inst (inst : ℕ) (hset : none ∉ (ir.insts inst).uses) (s : DumpText) :
    Prints s (instItems ir dot inst) (instDumpd ir dot inst s) := by
  unfold instItems
  simp only [List.append_assoc]
  refine (prints_result ir inst s).bind fun s₁ _ => ?_
  refine (prints_format [.directive (.str (stringBytes (kInstNames (ir.insts inst).type))),
    .literal (" ".toList.map byte) (by decide)] rfl rfl rfl rfl).bind fun s₂ _ => ?_
  refine (prints_parameters _ s₂).bind fun s₃ _ => ?_
  refine (prints_separated _ (fun use huse s => ?_) s₃).bind fun s₄ _ => prints_newLine s₄ dot
  cases use with
  | none => exact absurd huse hset
  | some value => exact prints_use ir value s

theorem prints_insts (insts : List ℕ) :
    (∀ i ∈ insts, none ∉ (ir.insts i).uses) → ∀ s,
      Prints s (insts.flatMap (instItems ir dot)) (dumpInsts ir dot insts s) := by
  induction insts with
  | nil => exact fun _ s => prints_nil s
  | cons inst rest ih =>
      intro hset s
      rw [List.flatMap_cons]
      exact (prints_inst ir dot inst (hset inst List.mem_cons_self) s).bind fun s' _ =>
        ih (fun i hi => hset i (List.mem_cons_of_mem _ hi)) s'

variable (annotations : IrPrintAnnotations) (block : ℕ)

/-- The dominator of a block that has a name. -/
theorem prints_idom (hdoms : ∀ doms ∈ annotations.doms, dominatorsGetIDom doms block ≠ none)
    (s : DumpText) (hnamed : s.names.name (.block block) ≠ []) :
    Prints s (idomItems dot annotations block)
      (dumpIDom dot annotations block (s.names.name (.block block)) s) := by
  unfold idomItems dumpIDom
  cases hannot : annotations.doms with
  | none => exact prints_nil s
  | some doms =>
      obtain ⟨dominator, hdominator⟩ :=
        Option.ne_none_iff_exists'.mp (hdoms doms (by rw [hannot]; rfl))
      simp only [Option.bind_some, hdominator, Option.bind_eq_bind]
      have hkeep : (s.names.named (.block dominator)).name (.block block) =
          s.names.name (.block block) := s.names.named_keeps hnamed
      have hitems : ∀ names : ValueNames, names.name (.block block) ≠ [] →
          names.name (.block dominator) ≠ [] →
          names.after [.string "// idom[", .name (.block block), .string "] = ",
            .name (.block dominator)] = names := by
        intro names hb hd
        show (names.named _).named _ = _
        rw [names.named_of_named hb, names.named_of_named hd]
      have hline : Prints s [.string "// idom[", .name (.block block), .string "] = ",
          .name (.block dominator)] (s.withName (.block dominator) fun dominatorName s' =>
            s'.format "// idom[\x7brange\x7d] = \x7brange\x7d"
              [.range (s.names.name (.block block)), .range dominatorName]) := by
        refine prints_withName (fun c => Value.noConfusion) ?_ ?_
        · rw [hitems _ (by rw [hkeep]; exact hnamed) s.names.named_self]
          show _ = (s.names.named _).named _
          rw [s.names.named_of_named hnamed]
        · exact prints_format [.literal ("// idom[".toList.map byte) (by decide),
            .directive (.range _), .literal ("] = ".toList.map byte) (by decide),
            .directive (.range _)] rfl rfl
            (hitems _ (by rw [hkeep]; exact hnamed) s.names.named_self) (by
              simp only [textPushes, List.flatMap_cons, TextItem.pushes, hkeep]
              rfl)
      exact hline.bind fun s' _ => prints_newLine s' dot

/-- The dominance frontier of a block that has a name. -/
theorem prints_frontier (s : DumpText) (hnamed : s.names.name (.block block) ≠ []) :
    Prints s (frontierItems dot annotations block)
      (dumpFrontier dot annotations block (s.names.name (.block block)) s) := by
  unfold frontierItems dumpFrontier
  cases annotations.df with
  | none => exact prints_nil s
  | some df =>
      simp only [List.append_assoc]
      refine (prints_format [.literal ("// df[".toList.map byte) (by decide),
        .directive (.range (s.names.name (.block block))),
        .literal ("] = [".toList.map byte) (by decide)] rfl rfl
        (by exact s.names.named_of_named hnamed) rfl).bind fun s₁ _ => ?_
      refine (prints_separated _ (fun b _ s => ?_) s₁).bind fun s₂ _ => ?_
      · refine prints_withName (fun c => by simp) ?_ ?_
        · exact (s.names.named _).named_of_named s.names.named_self
        · exact prints_format [.directive (.range _)] rfl rfl
            ((s.names.named _).named_of_named s.names.named_self) rfl
      · exact (prints_pushStr s₂ "]").bind fun s₃ _ => prints_newLine s₃ dot

/-- **A block**: its name, the annotations and its instructions. -/
theorem prints_block (hdoms : ∀ doms ∈ annotations.doms, dominatorsGetIDom doms block ≠ none)
    (hset : ∀ i ∈ ir.blocks block, none ∉ (ir.insts i).uses) (s : DumpText) :
    Prints s (blockItems ir dot annotations block) (blockDumpd ir dot annotations block s) := by
  have hself : (s.names.named (.block block)).name (.block block) ≠ [] := s.names.named_self
  have hnamed : (s.names.named (.block block)).named (.block block) =
      s.names.named (.block block) := (s.names.named _).named_of_named hself
  unfold blockItems
  refine prints_withName (fun c => Value.noConfusion) ?_ ?_
  · simp only [List.append_assoc]
    show ((s.names.named _).named _).after _ = (s.names.named _).after _
    rw [hnamed]
  have hhead : Prints ⟨s.names.named (.block block), s.buffer⟩
      [.string "!", .name (.block block), .string ":"]
      (DumpText.format ⟨s.names.named (.block block), s.buffer⟩ "!\x7brange\x7d:"
        [.range ((s.names.named (.block block)).name (.block block))]) :=
    prints_format [.literal [byte '!'] (by decide), .directive (.range _),
      .literal [byte ':'] (by decide)] rfl rfl (by exact hnamed) rfl
  have hrest : ∀ s₁ : DumpText, s₁.names.name (.block block) ≠ [] →
      Prints s₁ ([newLineItem dot] ++ (idomItems dot annotations block ++
          (frontierItems dot annotations block ++
            (ir.blocks block).flatMap (instItems ir dot))))
        ((some (s₁.newLine dot)).bind fun s =>
          (dumpIDom dot annotations block (s₁.names.name (.block block)) s).bind fun s =>
            (dumpFrontier dot annotations block (s₁.names.name (.block block)) s).bind
              (dumpInsts ir dot (ir.blocks block))) := by
    intro s₁ hs₁
    refine (prints_newLine s₁ dot).bind fun s₂ hs₂ => ?_
    have hs₂' : s₂.names = s₁.names := hs₂
    rw [← hs₂'] at hs₁ ⊢
    refine (prints_idom dot annotations block hdoms s₂ hs₁).bind fun s₃ hs₃ => ?_
    have hkeep : s₃.names.name (.block block) = s₂.names.name (.block block) := by
      rw [hs₃]
      exact ValueNames.foldl_named_keeps _ _ hs₁
    rw [← hkeep] at hs₁ ⊢
    exact (prints_frontier dot annotations block s₃ hs₁).bind fun s₄ _ =>
      prints_insts ir dot _ hset s₄
  have hall := hhead.bind fun s₁ hs₁ => by
    have hnames : s₁.names = s.names.named (.block block) := hs₁.trans hnamed
    have hs₁' := hrest s₁ (by rw [hnames]; exact hself)
    rw [hnames] at hs₁'
    exact hs₁'
  simp only [List.append_assoc, List.cons_append, List.nil_append] at hall ⊢
  exact hall

end Parts

/-! ## What a dump reads -/

/-- What `_block_dump` reads of a block is there: the operands of its instructions, and its
dominator, if the dominators are to be printed. -/
structure Dumpable (ir : Ir) (annotations : IrPrintAnnotations) (block : ℕ) : Prop where
  set : ∀ i ∈ ir.blocks block, none ∉ (ir.insts i).uses
  doms : ∀ doms ∈ annotations.doms, dominatorsGetIDom doms block ≠ none

section Reads

variable {ir : Ir} {dot : Bool} {annotations : IrPrintAnnotations} {block : ℕ}

/-- Every item of a list is dumped. -/
theorem dumped_of_separated {α : Type} {separator : String}
    {dump : α → DumpText → Option DumpText} (xs : List α) : ∀ {s s' : DumpText},
    DumpText.separated separator dump xs s = some s' → ∀ x ∈ xs, ∃ s, dump x s ≠ none := by
  induction xs with
  | nil => exact fun _ _ hx => absurd hx List.not_mem_nil
  | cons x rest ih =>
      intro s s' h
      obtain ⟨s₁, hs₁, hrest⟩ := Option.bind_eq_some_iff.mp h
      refine List.forall_mem_cons.mpr ⟨⟨s, ?_⟩, ih hrest⟩
      rw [hs₁]
      exact Option.some_ne_none _

theorem set_of_dumpInsts (insts : List ℕ) : ∀ {s s' : DumpText},
    dumpInsts ir dot insts s = some s' → ∀ i ∈ insts, none ∉ (ir.insts i).uses := by
  induction insts with
  | nil => exact fun _ _ hi => absurd hi List.not_mem_nil
  | cons inst rest ih =>
      intro s s' h
      obtain ⟨s₁, hs₁, hrest⟩ := Option.bind_eq_some_iff.mp h
      refine List.forall_mem_cons.mpr ⟨fun hnone => ?_, ih hrest⟩
      unfold instDumpd at hs₁
      obtain ⟨_, -, hs₁⟩ := Option.bind_eq_some_iff.mp hs₁
      obtain ⟨_, -, hs₁⟩ := Option.bind_eq_some_iff.mp hs₁
      obtain ⟨_, -, hs₁⟩ := Option.bind_eq_some_iff.mp hs₁
      obtain ⟨_, huses, -⟩ := Option.bind_eq_some_iff.mp hs₁
      obtain ⟨_, huse⟩ := dumped_of_separated _ huses none hnone
      exact huse rfl

theorem dumpable_of_blockDumpd {s s' : DumpText}
    (h : blockDumpd ir dot annotations block s = some s') : Dumpable ir annotations block := by
  obtain ⟨_, -, h⟩ := Option.bind_eq_some_iff.mp h
  obtain ⟨_, -, h⟩ := Option.bind_eq_some_iff.mp h
  obtain ⟨_, hidom, h⟩ := Option.bind_eq_some_iff.mp h
  obtain ⟨_, -, hinsts⟩ := Option.bind_eq_some_iff.mp h
  refine ⟨set_of_dumpInsts _ hinsts, fun doms hdoms => ?_⟩
  unfold dumpIDom at hidom
  rw [Option.mem_def.mp hdoms] at hidom
  obtain ⟨_, hdominator, -⟩ := Option.bind_eq_some_iff.mp hidom
  rw [hdominator]
  exact Option.some_ne_none _

/-- **A block is dumped** exactly if what is read is there. -/
theorem blockDumpd_iff (s : DumpText) :
    (∃ s', blockDumpd ir dot annotations block s = some s') ↔ Dumpable ir annotations block := by
  constructor
  · rintro ⟨s', h⟩
    exact dumpable_of_blockDumpd h
  · intro h
    obtain ⟨s', hs', -⟩ := prints_block ir dot annotations block h.doms h.set s
    exact ⟨s', hs'⟩

end Reads

/-! ## One dump after the other -/

section Each

variable {σ β : Type}

/-- `print` dumps one of several things by items of a text, if a condition on the names that the
values have then is met.  `acc` says which names a state has, and what has been dumped with which
text. -/
structure DumpsEach (print : σ → β → Option σ) (items : β → List TextItem)
    (cond : (Value → List UInt8) → β → Prop)
    (text : (Value → List UInt8) → β → List UInt8)
    (acc : σ → ValueNames → List (β × List UInt8) → Prop) : Prop where
  returns : ∀ s names done b, acc s names done → cond (names.after (items b)).name b →
    ∃ s', print s b = some s'
  next : ∀ s names done b s', acc s names done → print s b = some s' →
    cond (names.after (items b)).name b ∧
      acc s' (names.after (items b)) (done ++ [(b, text (names.after (items b)).name b)])
  stable : ∀ (names : ValueNames) more b, cond ((names.after (items b)).after more).name b ↔
    cond (names.after (items b)).name b
  stableText : ∀ (names : ValueNames) more b,
    text ((names.after (items b)).after more).name b = text (names.after (items b)).name b

variable {print : σ → β → Option σ} {items : β → List TextItem}
  {cond : (Value → List UInt8) → β → Prop} {text : (Value → List UInt8) → β → List UInt8}
  {acc : σ → ValueNames → List (β × List UInt8) → Prop}

/-- What is dumped, with the texts. -/
def dumpTexts (items : β → List TextItem) (text : (Value → List UInt8) → β → List UInt8)
    (names : ValueNames) (order : List β) : List (β × List UInt8) :=
  order.map fun b => (b, text (names.after (order.flatMap items)).name b)

/-- **All are dumped** exactly if each meets the condition under the names at the end. -/
theorem DumpsEach.foldlM_iff (h : DumpsEach print items cond text acc) (order : List β) :
    ∀ (s : σ) (names : ValueNames) (done : List (β × List UInt8)), acc s names done →
      ((∀ b ∈ order, cond (names.after (order.flatMap items)).name b) ↔
        ∃ s', order.foldlM print s = some s') ∧
      ∀ s', order.foldlM print s = some s' →
        acc s' (names.after (order.flatMap items)) (done ++ dumpTexts items text names order) := by
  induction order with
  | nil =>
      intro s names done hacc
      refine ⟨iff_of_true (fun _ hb => absurd hb List.not_mem_nil) ⟨s, rfl⟩, ?_⟩
      rintro s' ⟨⟩
      rw [dumpTexts, List.map_nil, List.append_nil]
      exact hacc
  | cons b order ih =>
      intro s names done hacc
      have hafter : names.after ((b :: order).flatMap items) =
          (names.after (items b)).after (order.flatMap items) := by
        rw [List.flatMap_cons, names.after_append]
      have htexts : dumpTexts items text names (b :: order) =
          (b, text (names.after (items b)).name b) ::
            dumpTexts items text (names.after (items b)) order := by
        unfold dumpTexts
        rw [List.map_cons, hafter, h.stableText]
      rw [hafter, htexts, List.forall_mem_cons, h.stable, List.foldlM_cons]
      constructor
      · constructor
        · rintro ⟨hb, hrest⟩
          obtain ⟨s₁, hs₁⟩ := h.returns s names done b hacc hb
          obtain ⟨s', hs'⟩ := (ih _ _ _ (h.next s names done b s₁ hacc hs₁).2).1.mp hrest
          exact ⟨s', Option.bind_eq_some_iff.mpr ⟨s₁, hs₁, hs'⟩⟩
        · rintro ⟨s', hs'⟩
          obtain ⟨s₁, hs₁, hrest⟩ := Option.bind_eq_some_iff.mp hs'
          obtain ⟨hb, hacc₁⟩ := h.next s names done b s₁ hacc hs₁
          exact ⟨hb, (ih _ _ _ hacc₁).1.mpr ⟨s', hrest⟩⟩
      · intro s' hs'
        obtain ⟨s₁, hs₁, hrest⟩ := Option.bind_eq_some_iff.mp hs'
        have hall := (ih _ _ _ (h.next s names done b s₁ hacc hs₁).2).2 s' hrest
        rw [List.append_assoc] at hall
        exact hall

end Each
