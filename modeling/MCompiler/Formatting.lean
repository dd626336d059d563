/-
# Formatting (`format.c`)

`format_listDbuffer` appends literal text to a buffer and, for a directive, what it stands
for.  The arguments are taken off a list; on x86-64 a `va_list` is an array, so the calls of
`format_token_emit` share the position in it.

* `formatListDbuffer_substitutes` : over any pieces of literal text and directives with their
  arguments, the buffer gets exactly the pieces, and the arguments of the directives are gone.
-/
import MCompiler.BufferText
import MCompiler.FormatScanner

/-! ## The formatter -/

/-- An argument of a format: an `unsigned int`, an `int`, a string or a range. -/
inductive FormatArg where
  | uint (number : UInt32)
  | int (number : Int32)
  | str (string : List UInt8)
  | range (range : List UInt8)
  deriving DecidableEq, Repr

/-- The buffer and the arguments that are left. -/
structure FormatState where
  buffer : LoggedBuffer
  args : List FormatArg

/-- `format_token_emit`.  A directive that finds an argument of another type, or none, is
undefined. -/
def formatTokenEmit (memory : List UInt8) (s : FormatState) (token : FormatToken) :
    Except FormatStop FormatState :=
  match token.type with
  | .HEX_UINT | .UINT =>
      match s.args with
      | .uint number :: args => .ok ⟨s.buffer.pushUIntStr number, args⟩
      | _ => .error .wrongArgument
  | .INT =>
      match s.args with
      | .int number :: args => .ok ⟨s.buffer.pushIntStr number, args⟩
      | _ => .error .wrongArgument
  | .NULL_STR =>
      match s.args with
      | .str string :: args => .ok ⟨s.buffer.pushRange string, args⟩
      | _ => .error .wrongArgument
  | .RANGE =>
      match s.args with
      | .range range :: args => .ok ⟨s.buffer.pushRange range, args⟩
      | _ => .error .wrongArgument
  | .STRING => .ok { s with buffer := s.buffer.pushRange (rangeBytes memory token.contents) }
  | .CURLY_OPEN => .ok { s with buffer := s.buffer.pushChar (byte '{') }
  | .CURLY_CLOSE => .ok { s with buffer := s.buffer.pushChar (byte '}') }
  -- no case of the switch
  | .EEOF | .ERROR | .HEX_INT | .DBUFFER | .PRINTER | .LIST => .ok s

/-- `format_listDbuffer`. -/
def formatListDbuffer (fuel : ℕ) (fmt : List UInt8) (result : LoggedBuffer)
    (args : List FormatArg) : Option (Except FormatStop (FormatEnd FormatState)) :=
  formatTokenLoop (stringMemory fmt) (formatTokenEmit (stringMemory fmt)) fuel
    (formatRangeFromString fmt) ⟨result, args⟩

/-- The bytes of a string. -/
def stringBytes (string : String) : List UInt8 := string.toList.map byte

/-- An argument of another integer type that is read as an `int`. -/
def intArg (number : ℤ) : FormatArg := .int (Int32.ofInt number)

/-- `format_dbuffer`. -/
def formatDbuffer (fmt : String) (buffer : LoggedBuffer) (args : List FormatArg) :
    Option LoggedBuffer :=
  match formatListDbuffer (fmt.toList.length + 1) (fmt.toList.map byte) buffer args with
  | some (.ok result) => some result.state.buffer
  | _ => none

/-- `format_range`. -/
def formatRange (fmt : String) (args : List FormatArg) : Option (List UInt8) :=
  (formatDbuffer fmt ⟨dbufferInitSize 1000, []⟩ args).map (·.d.contents)

/-! ## Pieces -/

/-- A directive of a format, with its argument. -/
inductive Directive where
  | int (number : Int32)
  | uint (number : UInt32)
  | str (string : List UInt8)
  | range (range : List UInt8)
  | co
  | cc

namespace Directive

/-- The name between the braces. -/
def name : Directive → List UInt8
  | .int _ => "int".toList.map byte
  | .uint _ => "uint".toList.map byte
  | .str _ => "str".toList.map byte
  | .range _ => "range".toList.map byte
  | .co => "co".toList.map byte
  | .cc => "cc".toList.map byte

/-- The type of its token. -/
def type : Directive → FormatTokenType
  | .int _ => .INT
  | .uint _ => .UINT
  | .str _ => .NULL_STR
  | .range _ => .RANGE
  | .co => .CURLY_OPEN
  | .cc => .CURLY_CLOSE

/-- The argument that it consumes. -/
def args : Directive → List FormatArg
  | .int number => [.int number]
  | .uint number => [.uint number]
  | .str string => [.str string]
  | .range bytes => [.range bytes]
  | .co => []
  | .cc => []

/-- What it stands for: a number by its decimal numeral, a string or a range by its bytes. -/
def rendering : Directive → List UInt8
  | .int number =>
      if number < 0 then byte '-' :: decimalBytes number.toInt.natAbs
      else decimalBytes number.toInt.natAbs
  | .uint number => decimalBytes number.toNat
  | .str string => string
  | .range bytes => bytes
  | .co => [byte '{']
  | .cc => [byte '}']

/-- The pushes that write it: a number is written digit by digit. -/
def pushes : Directive → List (List UInt8)
  | .int number => LoggedBuffer.chars (Directive.int number).rendering
  | .uint number => LoggedBuffer.chars (Directive.uint number).rendering
  | .str string => [string]
  | .range bytes => [bytes]
  | .co => [[byte '{']]
  | .cc => [[byte '}']]

theorem flatten_pushes (d : Directive) : d.pushes.flatten = d.rendering := by
  cases d with
  | int number => exact LoggedBuffer.flatten_chars _
  | uint number => exact LoggedBuffer.flatten_chars _
  | str string => exact List.append_nil _
  | range bytes => exact List.append_nil _
  | co => rfl
  | cc => rfl

end Directive

/-- A piece of a format: literal text without an opening brace, or a directive. -/
inductive FormatPiece where
  | literal (text : List UInt8) (hbrace : byte '{' ∉ text)
  | directive (d : Directive)

namespace FormatPiece

/-- The piece in the format string. -/
def source : FormatPiece → List UInt8
  | .literal text _ => text
  | .directive d => byte '{' :: (d.name ++ [byte '}'])

/-- Its arguments. -/
def args : FormatPiece → List FormatArg
  | .literal _ _ => []
  | .directive d => d.args

/-- The piece in the output. -/
def rendering : FormatPiece → List UInt8
  | .literal text _ => text
  | .directive d => d.rendering

/-- The push of literal text; there is no token for none. -/
def literalPushes : List UInt8 → List (List UInt8)
  | [] => []
  | c :: text => [c :: text]

/-- The pushes for literal text `lit` and pieces behind it.  Literal text of pieces that follow
each other is one token. -/
def pushes : List UInt8 → List FormatPiece → List (List UInt8)
  | lit, [] => literalPushes lit
  | lit, .literal text _ :: pieces => pushes (lit ++ text) pieces
  | lit, .directive d :: pieces => literalPushes lit ++ (d.pushes ++ pushes [] pieces)

theorem flatten_literalPushes (text : List UInt8) : (literalPushes text).flatten = text := by
  cases text with
  | nil => rfl
  | cons c text => exact List.append_nil _

theorem flatten_pushes (pieces : List FormatPiece) : ∀ lit,
    (pushes lit pieces).flatten = lit ++ pieces.flatMap rendering := by
  induction pieces with
  | nil => exact fun lit => (flatten_literalPushes lit).trans (List.append_nil lit).symm
  | cons piece pieces ih =>
    intro lit
    cases piece with
    | literal text hbrace =>
      rw [pushes, ih, List.flatMap_cons, List.append_assoc]
      rfl
    | directive d =>
      rw [pushes, List.flatten_append, List.flatten_append, ih, flatten_literalPushes,
        d.flatten_pushes, List.flatMap_cons, List.nil_append]
      rfl

end FormatPiece

/-! ## One directive -/

theorem Directive.tokenType_name (d : Directive) : formatGetTokenType d.name = d.type := by
  cases d <;> rfl

theorem Directive.type_ne_error (d : Directive) : d.type ≠ .ERROR := by
  cases d <;> simp [Directive.type]

/-- The directive writes its rendering and consumes its argument. -/
theorem formatTokenEmit_directive {memory : List UInt8} (d : Directive) {s : FormatState}
    {token : FormatToken} (htype : token.type = d.type)
    {more : List FormatArg} (hargs : s.args = d.args ++ more) :
    ∃ b, formatTokenEmit memory s token = .ok ⟨b, more⟩ ∧
      LoggedBuffer.Written s.buffer b d.pushes := by
  cases d with
  | int number =>
    have htype' : token.type = .INT := htype
    refine ⟨s.buffer.pushIntStr number, ?_, ?_⟩
    · simp [formatTokenEmit, htype', hargs, Directive.args]
    · exact s.buffer.written_pushIntStr number
  | uint number =>
    have htype' : token.type = .UINT := htype
    refine ⟨s.buffer.pushUIntStr number, ?_, ?_⟩
    · simp [formatTokenEmit, htype', hargs, Directive.args]
    · exact s.buffer.written_pushUIntStr number
  | str string =>
    have htype' : token.type = .NULL_STR := htype
    refine ⟨s.buffer.pushRange string, ?_, ?_⟩
    · simp [formatTokenEmit, htype', hargs, Directive.args]
    · exact s.buffer.written_pushData string
  | range bytes =>
    have htype' : token.type = .RANGE := htype
    refine ⟨s.buffer.pushRange bytes, ?_, ?_⟩
    · simp [formatTokenEmit, htype', hargs, Directive.args]
    · exact s.buffer.written_pushData bytes
  | co =>
    have htype' : token.type = .CURLY_OPEN := htype
    refine ⟨s.buffer.pushChar (byte '{'), ?_, ?_⟩
    · simp [formatTokenEmit, htype', hargs, Directive.args]
    · exact s.buffer.written_pushData [byte '{']
  | cc =>
    have htype' : token.type = .CURLY_CLOSE := htype
    refine ⟨s.buffer.pushChar (byte '}'), ?_, ?_⟩
    · simp [formatTokenEmit, htype', hargs, Directive.args]
    · exact s.buffer.written_pushData [byte '}']

/-! ## All pieces -/

/-- The loop formats a text with the arguments `args` by the pushes `pushes`, whatever comes
after the arguments, and ends at the end of the string. -/
def LoopFormats (memory text : List UInt8) (args : List FormatArg)
    (pushes : List (List UInt8)) : Prop :=
  ∀ fuel range s more, text.length < fuel → TextLeft memory range text →
    s.args = args ++ more →
    ∃ result, formatTokenLoop memory (formatTokenEmit memory) fuel range s = some (.ok result) ∧
      result.token.type = .EEOF ∧ result.range.size = 0 ∧ result.state.args = more ∧
      LoggedBuffer.Written s.buffer result.state.buffer pushes

section Loop

variable {memory text : List UInt8} {args : List FormatArg} {pushes : List (List UInt8)}

theorem loopFormats_nil : LoopFormats memory [] [] [] := by
  intro fuel range s more hfuel hleft hargs
  obtain ⟨fuel, rfl⟩ := Nat.exists_eq_add_of_lt hfuel
  obtain ⟨token, range', htoken, htype, -, hleft'⟩ := formatNextToken_eq hleft
  have hemit : formatTokenEmit memory s token = .ok s := by
    have htype' : token.type = .EEOF := htype
    simp [formatTokenEmit, htype']
  refine ⟨_, formatTokenLoop_end htoken hemit (.inr htype), htype, hleft'.size, hargs, ?_⟩
  exact LoggedBuffer.Written.refl _

/-- Literal text up to a brace or to the end is one token. -/
theorem LoopFormats.literal (h : LoopFormats memory text args pushes) {lit : List UInt8}
    (hne : lit ≠ []) (hbrace : byte '{' ∉ lit)
    (htext : text = [] ∨ ∃ rest, text = byte '{' :: rest) :
    LoopFormats memory (lit ++ text) args ([lit] ++ pushes) := by
  intro fuel range s more hfuel hleft hargs
  have hall : ∀ c ∈ lit, decide (c ≠ byte '{') = true :=
    fun c hc => decide_eq_true fun heq => hbrace (heq ▸ hc)
  have htake : (lit ++ text).takeWhile (· ≠ byte '{') = lit := by
    rw [List.takeWhile_append_of_pos hall]
    rcases htext with rfl | ⟨rest, rfl⟩ <;> simp
  have hdrop : (lit ++ text).dropWhile (· ≠ byte '{') = text := by
    rw [List.dropWhile_append_of_pos hall]
    rcases htext with rfl | ⟨rest, rfl⟩ <;> simp
  have hnext := formatNextToken_eq hleft
  have hpart : nextPart (lit ++ text) = some (.STRING, lit, text) := by
    obtain ⟨c, lit, rfl⟩ := List.exists_cons_of_ne_nil hne
    have hc : c ≠ byte '{' := fun heq => hbrace (by simp [heq])
    rw [List.cons_append] at htake hdrop ⊢
    rw [nextPart_literal hc, htake, hdrop]
  rw [hpart] at hnext
  obtain ⟨token, range', htoken, htype, hbytes, hleft'⟩ := hnext
  have hemit : formatTokenEmit memory s token
      = .ok { s with buffer := s.buffer.pushRange lit } := by
    simp [formatTokenEmit, htype, hbytes]
  rw [List.length_append] at hfuel
  have hpush : LoggedBuffer.Written s.buffer (s.buffer.pushRange lit) [lit] :=
    s.buffer.written_pushData lit
  obtain ⟨fuel, rfl⟩ := Nat.exists_eq_add_of_lt (Nat.lt_of_le_of_lt (Nat.zero_le _) hfuel)
  have hpos : 0 < lit.length := List.length_pos_of_ne_nil hne
  obtain ⟨result, hloop, htoken', hsize, hmore, hwritten⟩ :=
    h (0 + fuel) range' ⟨s.buffer.pushRange lit, s.args⟩ more (by omega) hleft' hargs
  refine ⟨result, ?_, htoken', hsize, hmore, hpush.trans hwritten⟩
  rw [formatTokenLoop_next htoken hemit (by simp [htype]) (by simp [htype])]
  exact hloop

theorem LoopFormats.directive (h : LoopFormats memory text args pushes) (d : Directive) :
    LoopFormats memory ((FormatPiece.directive d).source ++ text) (d.args ++ args)
      (d.pushes ++ pushes) := by
  intro fuel range s more hfuel hleft hargs
  have hname := name_of_tokenType (d.tokenType_name ▸ d.type_ne_error)
  have hsource : (FormatPiece.directive d).source ++ text
      = byte '{' :: (d.name ++ byte '}' :: text) := by
    simp [FormatPiece.source]
  have hnext := formatNextToken_eq hleft
  rw [hsource, nextPart_group hname.2 hname.1] at hnext
  obtain ⟨token, range', htoken, htype, -, hleft'⟩ := hnext
  rw [d.tokenType_name] at htype
  obtain ⟨b, hemit, hpush⟩ := @formatTokenEmit_directive memory d s token htype (args ++ more)
    (by rw [hargs, List.append_assoc])
  obtain ⟨fuel, rfl⟩ := Nat.exists_eq_add_of_lt (Nat.lt_of_le_of_lt (Nat.zero_le _) hfuel)
  have hlength : text.length < fuel := by
    rw [hsource] at hfuel
    simp at hfuel
    omega
  obtain ⟨result, hloop, htoken', hsize, hmore, hwritten⟩ :=
    h (0 + fuel) range' ⟨b, args ++ more⟩ more (by omega) hleft' rfl
  refine ⟨result, ?_, htoken', hsize, hmore, hpush.trans hwritten⟩
  have heof : token.type ≠ .EEOF := htype ▸ d.tokenType_name ▸ tokenType_ne_eof _
  rw [formatTokenLoop_next htoken hemit (htype ▸ d.type_ne_error) heof]
  exact hloop

/-- Literal text `lit` and pieces behind it.  The pieces that are literal, too, belong to the
same token, so the induction collects them in `lit`. -/
theorem loopFormats_pieces (pieces : List FormatPiece) {lit : List UInt8}
    (hbrace : byte '{' ∉ lit) :
    LoopFormats memory (lit ++ pieces.flatMap FormatPiece.source)
      (pieces.flatMap FormatPiece.args) (FormatPiece.pushes lit pieces) := by
  induction pieces generalizing lit with
  | nil =>
    cases lit with
    | nil => exact loopFormats_nil
    | cons c lit => exact loopFormats_nil.literal (List.cons_ne_nil c lit) hbrace (.inl rfl)
  | cons piece pieces ih =>
    cases piece with
    | literal more hmore =>
      have hboth : byte '{' ∉ lit ++ more := by simp [hbrace, hmore]
      simpa [FormatPiece.source, FormatPiece.args, FormatPiece.pushes] using ih hboth
    | directive d =>
      have hrest := (ih List.not_mem_nil).directive d
      cases lit with
      | nil => exact hrest
      | cons c lit =>
        exact hrest.literal (List.cons_ne_nil c lit) hbrace (.inr ⟨_, rfl⟩)

end Loop

/-- `format_dbuffer` on a format of literal text and directives. -/
theorem formatDbuffer_pieces (pieces : List FormatPiece) {fmt : String}
    (hfmt : fmt.toList.map byte = pieces.flatMap FormatPiece.source) (b : LoggedBuffer) :
    ∃ b', formatDbuffer fmt b (pieces.flatMap FormatPiece.args) = some b' ∧
      LoggedBuffer.Written b b' (FormatPiece.pushes [] pieces) := by
  have hloop : LoopFormats (stringMemory (pieces.flatMap FormatPiece.source)) _ _ _ :=
    loopFormats_pieces pieces List.not_mem_nil
  obtain ⟨result, hresult, -, -, -, hwritten⟩ :=
    hloop _ _ ⟨b, pieces.flatMap FormatPiece.args⟩ [] (Nat.lt_succ_self _)
      (textLeft_string _) (List.append_nil _).symm
  have hlength : fmt.toList.length = (pieces.flatMap FormatPiece.source).length := by
    rw [← hfmt, List.length_map]
  refine ⟨result.state.buffer, ?_, hwritten⟩
  unfold formatDbuffer formatListDbuffer
  rw [hlength, hfmt]
  have hresult' := hresult
  rw [List.nil_append] at hresult'
  simp only [hresult']

/-- **Formatting substitutes exactly.**  On a format of literal text and directives, with the
arguments of the directives in front, `format_listDbuffer` appends the literal text and the
renderings, consumes these arguments and no more, and ends at the end of the string. -/
theorem formatListDbuffer_substitutes (pieces : List FormatPiece) (b : LoggedBuffer)
    (more : List FormatArg)
    (hfits : b.d.usage + (pieces.flatMap FormatPiece.rendering).length < 2 ^ 64) :
    ∃ result, formatListDbuffer ((pieces.flatMap FormatPiece.source).length + 1)
        (pieces.flatMap FormatPiece.source) b (pieces.flatMap FormatPiece.args ++ more)
          = some (.ok result) ∧
      result.token.type = .EEOF ∧ result.range.size = 0 ∧ result.state.args = more ∧
      result.state.buffer.d.contents
        = b.d.contents ++ pieces.flatMap FormatPiece.rendering := by
  have hloop : LoopFormats (stringMemory (pieces.flatMap FormatPiece.source)) _ _ _ :=
    loopFormats_pieces pieces List.not_mem_nil
  obtain ⟨result, hresult, htype, hsize, hargs, hwritten⟩ :=
    hloop _ _ ⟨b, pieces.flatMap FormatPiece.args ++ more⟩ more (Nat.lt_succ_self _)
      (textLeft_string _) rfl
  have happends := hwritten.appends
  rw [FormatPiece.flatten_pushes, List.nil_append] at happends
  exact ⟨result, hresult, htype, hsize, hargs, (happends hfits).contents⟩

/-- The pieces of `Kuter {int},{str},{range}` and a newline, with three arguments. -/
def printedPieces : List FormatPiece :=
  [.literal ("Kuter ".toList.map byte) (by decide), .directive (.int 10),
    .literal [byte ','] (by decide), .directive (.str ("test".toList.map byte)),
    .literal [byte ','] (by decide), .directive (.range ("1 2 3".toList.map byte)),
    .literal [byte '\n'] (by decide)]

theorem rendering_printedPieces :
    printedPieces.flatMap FormatPiece.rendering = "Kuter 10,test,1 2 3\n".toList.map byte := by
  have hten : decimalBytes (10 : Int32).toInt.natAbs = "10".toList.map byte := by
    change decimalBytes 10 = _
    rw [decimalBytes, decimalBytes]
    rfl
  have hsign : ¬ (10 : Int32) < 0 := by decide
  simp only [printedPieces, List.flatMap_cons, List.flatMap_nil, FormatPiece.rendering,
    Directive.rendering, hten, if_neg hsign]
  rfl

theorem formatListDbuffer_print :
    ∃ result, formatListDbuffer 27
        ("Kuter \x7bint\x7d,\x7bstr\x7d,\x7brange\x7d\n".toList.map byte)
        ⟨dbufferInitSize 1000, []⟩
        [.int 10, .str ("test".toList.map byte), .range ("1 2 3".toList.map byte)]
          = some (.ok result) ∧
      result.token.type = .EEOF ∧ result.range.size = 0 ∧ result.state.args = [] ∧
      result.state.buffer.d.contents = "Kuter 10,test,1 2 3\n".toList.map byte := by
  have hresult := formatListDbuffer_substitutes printedPieces ⟨dbufferInitSize 1000, []⟩ []
    (by rw [rendering_printedPieces]; decide)
  rw [rendering_printedPieces] at hresult
  exact hresult
