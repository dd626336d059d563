/-
# The text of a node of the syntax tree (`parser.c`)

`ast_nodeInfoBuffer` writes the type of a node and, for five of the types, a second line about
it.  `ast_dump` prints this text from a buffer of its own, `ast_dumpDot` makes it the label of
the node; each of these buffers comes from `dbuffer_init`.

* `astNodeInfo_iff`, `astNodeLabel_iff` : a node that can be read is printed or becomes a label
  exactly if its text fits in the buffer.
-/
import MCompiler.Ast
import MCompiler.DotBuilder
import MCompiler.Lib.Stopping

/-- Why a traversal of the tree does not return. -/
inductive WalkStop where
  | nullDeref | wildDeref | assertFailed | badFormat | overrun | outOfFuel
  deriving DecidableEq, Repr

/-! ## The tables of names -/

/-- `token_type_names`. -/
def tokenTypeNames : TokenType → String
  | .EEOF => "TK_EEOF"
  | .ERROR => "TK_ERROR"
  | .ID => "TK_ID"
  | .KW_WHILE => "TK_KW_WHILE"
  | .KW_IF => "TK_KW_IF"
  | .KW_ELSE => "TK_KW_ELSE"
  | .KW_VOID => "TK_KW_VOID"
  | .KW_INT64 => "TK_KW_INT64"
  | .KW_RETURN => "TK_KW_RETURN"
  | .PLUS => "TK_PLUS"
  | .MINUS => "TK_MINUS"
  | .STRING => "TK_STRING"
  | .MUL => "TK_MUL"
  | .DIV => "TK_DIV"
  | .NUMBER => "TK_NUMBER"
  | .ASSIGN => "TK_ASSIGN"
  | .EQUALS => "TK_EQUALS"
  | .GREATER => "TK_GREATER"
  | .LESS_THAN => "TK_LESS_THAN"
  | .LESS_EQ => "TK_LESS_EQ"
  | .GREATER_EQ => "TK_GREATER_EQ"
  | .CURLY_OPEN => "TK_CURLY_OPEN"
  | .CURLY_CLOSE => "TK_CURLY_CLOSE"
  | .PARAN_OPEN => "TK_PARAN_OPEN"
  | .PARAN_CLOSE => "TK_PARAN_CLOSE"
  | .SEMI_COLON => "TK_SEMI_COLON"

/-- `kASTNodeName`, of the type of a node; there is none behind the null pointer. -/
def kASTNodeName : AstNode → String
  | .null => ""
  | .number _ => "NUMBER"
  | .variable _ _ => "VARIABLE"
  | .binaryExp _ _ _ _ => "BINARY_EXP"
  | .while _ _ => "WHILE"
  | .if _ _ => "IF"
  | .block _ => "BLOCK"
  | .return => "RETURN"
  | .declaration _ _ => "DECLARATION"
  | .function _ _ _ _ => "FUNCTION"

/-! ## Writing the text -/

/-- `format_dbuffer` on the buffer of a node. -/
def formatNode (fmt : String) (buffer : LoggedBuffer) (args : List FormatArg) :
    Except WalkStop LoggedBuffer :=
  match formatDbuffer fmt buffer args with
  | none => .error .badFormat
  | some buffer => .ok buffer

/-- `ident_dbuffer`. -/
def identDbuffer (buffer : LoggedBuffer) (i : ℕ) : LoggedBuffer := buffer.pushChars (byte '\t') i

/-- The switch of `ast_nodeInfoBuffer`. -/
def astNodeDetail (node : AstNode) (buffer : LoggedBuffer) (i : ℕ) :
    Except WalkStop LoggedBuffer :=
  match node with
  | .number num => formatNode "'\x7bint\x7d'" (identDbuffer buffer i) [intArg num.toInt]
  | .binaryExp op _ _ _ =>
      formatNode "'\x7bstr\x7d'" (identDbuffer buffer i) [.str (stringBytes (tokenTypeNames op))]
  -- the name is read through a pointer that a sign has negated
  | .variable _ true => .error .wildDeref
  | .variable varName false =>
      formatNode "'\x7brange\x7d'" (identDbuffer buffer i) [.range varName]
  | .function _ returnType _ _ =>
      formatNode "returnType: (\x7bstr\x7d)" (identDbuffer buffer i)
        [.str (stringBytes (tokenTypeNames returnType))]
  | .declaration dataType _ =>
      formatNode "dataType: (\x7bstr\x7d)" (identDbuffer buffer i)
        [.str (stringBytes (tokenTypeNames dataType))]
  | _ => .ok buffer

/-- `ast_nodeInfoBuffer`. -/
def astNodeInfoBuffer (node : AstNode) (buffer : LoggedBuffer) (i : ℕ) :
    Except WalkStop LoggedBuffer :=
  if node.isNull then .error .nullDeref
  else do
    let buffer ← formatNode "Node Type: \x7bstr\x7d\n" (identDbuffer buffer i)
      [.str (stringBytes (kASTNodeName node))]
    astNodeDetail node buffer i

/-- The string in a buffer, unless something has been stored past its end. -/
def storedString (buffer : LoggedBuffer) : Except WalkStop (List UInt8) :=
  if buffer.d.Good then .ok (cString buffer.d.contents) else .error .overrun

/-- `ast_nodeInfo`: the string that is printed. -/
def astNodeInfo (node : AstNode) (i : ℕ) : Except WalkStop (List UInt8) := do
  let dbuffer ← astNodeInfoBuffer node ⟨dbufferInitSize 1000, []⟩ i
  storedString (dbuffer.pushChar 0)

/-- The properties of a node in `_ast_dumpDot`. -/
def astNodeLabel (node : AstNode) : Except WalkStop (List UInt8) := do
  let buffer : LoggedBuffer := ⟨dbufferInitSize 1000, []⟩
  let buffer ← astNodeInfoBuffer node (buffer.pushStr (stringBytes "label=\"")) 0
  storedString ((buffer.pushChar (byte '"')).pushChar 0)

/-! ## What is written -/

/-- The pushes of the second line, if there is one. -/
def detailPushes : AstNode → List (List UInt8)
  | .number num =>
      [stringBytes "'"] ++ (Directive.int (Int32.ofInt num.toInt)).pushes ++ [stringBytes "'"]
  | .binaryExp op _ _ _ => [stringBytes "'", stringBytes (tokenTypeNames op), stringBytes "'"]
  | .variable varName _ => [stringBytes "'", varName, stringBytes "'"]
  | .function _ returnType _ _ =>
      [stringBytes "returnType: (", stringBytes (tokenTypeNames returnType), stringBytes ")"]
  | .declaration dataType _ =>
      [stringBytes "dataType: (", stringBytes (tokenTypeNames dataType), stringBytes ")"]
  | _ => []

/-- The pushes of `ast_nodeInfoBuffer`. -/
def infoPushes (node : AstNode) (i : ℕ) : List (List UInt8) :=
  let ident := List.replicate i (byte '\t')
  [ident, stringBytes "Node Type: ", stringBytes (kASTNodeName node), stringBytes "\n"] ++
    if detailPushes node = [] then [] else ident :: detailPushes node

/-- The pushes of `ast_nodeInfo`. -/
def nodeLinePushes (node : AstNode) (i : ℕ) : List (List UInt8) := infoPushes node i ++ [[0]]

/-- The pushes for the label of a node. -/
def nodeLabelPushes (node : AstNode) : List (List UInt8) :=
  [stringBytes "label=\""] ++ infoPushes node 0 ++ [[byte '"'], [0]]

/-- A node that `ast_nodeInfoBuffer` can read: the pointer is not null, and the one to the name
of a variable is not damaged. -/
def AstNode.Readable : AstNode → Prop
  | .null => False
  | .variable _ wild => wild = false
  | _ => True

theorem formatNode_pieces (pieces : List FormatPiece) {fmt : String}
    (hfmt : fmt.toList.map byte = pieces.flatMap FormatPiece.source) (b : LoggedBuffer) :
    ∃ b', formatNode fmt b (pieces.flatMap FormatPiece.args) = .ok b' ∧
      LoggedBuffer.Written b b' (FormatPiece.pushes [] pieces) := by
  obtain ⟨b', hb', hwritten⟩ := formatDbuffer_pieces pieces hfmt b
  refine ⟨b', ?_, hwritten⟩
  unfold formatNode
  rw [hb']

/-- Literal text before and behind a directive, in a line of its own. -/
theorem formatNode_line (fmt : String) (before behind : List UInt8) (d : Directive)
    (hfmt : fmt.toList.map byte = before ++ (FormatPiece.directive d).source ++ behind)
    (hbefore : before ≠ [] ∧ byte '{' ∉ before) (hbehind : behind ≠ [] ∧ byte '{' ∉ behind)
    (b : LoggedBuffer) (i : ℕ) :
    ∃ b', formatNode fmt (identDbuffer b i) d.args = .ok b' ∧
      LoggedBuffer.Written b b'
        (List.replicate i (byte '\t') :: ([before] ++ d.pushes ++ [behind])) := by
  have hsource : fmt.toList.map byte =
      ([.literal before hbefore.2, .directive d, .literal behind hbehind.2] :
        List FormatPiece).flatMap FormatPiece.source := by
    rw [hfmt]
    simp [FormatPiece.source]
  obtain ⟨b', hb', hwritten⟩ := formatNode_pieces _ hsource (identDbuffer b i)
  refine ⟨b', ?_, ?_⟩
  · simpa [FormatPiece.args] using hb'
  · obtain ⟨c, before, rfl⟩ := List.exists_cons_of_ne_nil hbefore.1
    obtain ⟨c', behind, rfl⟩ := List.exists_cons_of_ne_nil hbehind.1
    have hpushes := (b.written_pushChars (byte '\t') i).trans hwritten
    simpa [FormatPiece.pushes, FormatPiece.literalPushes] using hpushes

/-- The first line of a node. -/
theorem formatNode_type (node : AstNode) (b : LoggedBuffer) (i : ℕ) :
    ∃ b', formatNode "Node Type: \x7bstr\x7d\n" (identDbuffer b i)
        [.str (stringBytes (kASTNodeName node))] = .ok b' ∧
      LoggedBuffer.Written b b' [List.replicate i (byte '\t'), stringBytes "Node Type: ",
        stringBytes (kASTNodeName node), stringBytes "\n"] :=
  formatNode_line _ (stringBytes "Node Type: ") (stringBytes "\n") (.str _) rfl
    (by decide) (by decide) b i

/-- The second line of a node that can be read. -/
theorem astNodeDetail_eq {node : AstNode} (h : node.Readable) (b : LoggedBuffer) (i : ℕ) :
    ∃ b', astNodeDetail node b i = .ok b' ∧ LoggedBuffer.Written b b'
      (if detailPushes node = [] then [] else
        List.replicate i (byte '\t') :: detailPushes node) := by
  cases node with
  | null => exact absurd h id
  | number num =>
      exact formatNode_line "'\x7bint\x7d'" (stringBytes "'") (stringBytes "'") (.int _) rfl
        (by decide) (by decide) b i
  | binaryExp op left right wild =>
      exact formatNode_line "'\x7bstr\x7d'" (stringBytes "'") (stringBytes "'") (.str _) rfl
        (by decide) (by decide) b i
  | «variable» varName wild =>
      cases h
      exact formatNode_line "'\x7brange\x7d'" (stringBytes "'") (stringBytes "'") (.range _) rfl
        (by decide) (by decide) b i
  | function name returnType argumentCount childs =>
      exact formatNode_line "returnType: (\x7bstr\x7d)" (stringBytes "returnType: (")
        (stringBytes ")") (.str _) rfl (by decide) (by decide) b i
  | declaration dataType assignment =>
      exact formatNode_line "dataType: (\x7bstr\x7d)" (stringBytes "dataType: (")
        (stringBytes ")") (.str _) rfl (by decide) (by decide) b i
  | _ => exact ⟨b, rfl, .refl b⟩

/-- **The text of a node** that can be read. -/
theorem astNodeInfoBuffer_eq {node : AstNode} (h : node.Readable) (b : LoggedBuffer) (i : ℕ) :
    ∃ b', astNodeInfoBuffer node b i = .ok b' ∧
      LoggedBuffer.Written b b' (infoPushes node i) := by
  have hnull : node.isNull = false := by
    cases node with
    | null => exact absurd h id
    | _ => rfl
  obtain ⟨b₁, hb₁, hline⟩ := formatNode_type node b i
  obtain ⟨b₂, hb₂, hdetail⟩ := astNodeDetail_eq h b₁ i
  refine ⟨b₂, ?_, hline.trans hdetail⟩
  unfold astNodeInfoBuffer
  rw [hnull, if_neg Bool.false_ne_true, hb₁]
  exact hb₂

/-- A node is only written if it can be read. -/
theorem readable_of_astNodeInfoBuffer {node : AstNode} {b b' : LoggedBuffer} {i : ℕ}
    (h : astNodeInfoBuffer node b i = .ok b') : node.Readable := by
  cases node with
  | null => cases h
  | «variable» varName wild =>
      cases wild with
      | false => rfl
      | true =>
          obtain ⟨b₁, hb₁, -⟩ := formatNode_type (.variable varName true) b i
          obtain ⟨_, -, hdetail⟩ := exists_of_bind_ok h
          cases hdetail
  | _ => trivial

/-! ## The strings -/

theorem storedString_iff {b : LoggedBuffer} {pushes : List (List UInt8)} {text : List UInt8}
    (h : LoggedBuffer.Written ⟨dbufferInitSize 1000, []⟩ b pushes) :
    storedString b = .ok text ↔
      FitsBuffer (pushes.map List.length) ∧ text = cString pushes.flatten := by
  have hgood := h.good_iff dbufferInit_empty
  have hcontents := h.contents dbufferInit_empty
  unfold storedString
  constructor
  · intro htext
    split at htext
    · next hstored =>
      rw [← hcontents hstored]
      exact ⟨hgood.mp hstored, (Except.ok.inj htext).symm⟩
    · cases htext
  · rintro ⟨hfits, rfl⟩
    rw [if_pos (hgood.mpr hfits), hcontents (hgood.mpr hfits)]

/-- **`ast_nodeInfo`** prints a node exactly if it can be read and its text fits. -/
theorem astNodeInfo_iff {node : AstNode} {i : ℕ} {text : List UInt8} :
    astNodeInfo node i = .ok text ↔ node.Readable ∧
      FitsBuffer ((nodeLinePushes node i).map List.length) ∧
      text = cString (nodeLinePushes node i).flatten := by
  constructor
  · intro h
    unfold astNodeInfo at h
    obtain ⟨b, hb, hstored⟩ := exists_of_bind_ok h
    have hread := readable_of_astNodeInfoBuffer hb
    obtain ⟨b', hb', hwritten⟩ := astNodeInfoBuffer_eq hread ⟨dbufferInitSize 1000, []⟩ i
    obtain rfl := Except.ok.inj (hb.symm.trans hb')
    exact ⟨hread, (storedString_iff (hwritten.trans (b.written_pushData [0]))).mp hstored⟩
  · rintro ⟨hread, hfits⟩
    obtain ⟨b, hb, hwritten⟩ := astNodeInfoBuffer_eq hread ⟨dbufferInitSize 1000, []⟩ i
    unfold astNodeInfo
    rw [hb, ok_bind]
    exact (storedString_iff (hwritten.trans (b.written_pushData [0]))).mpr hfits

/-- **The label** of a node is written exactly if the node can be read and the text fits. -/
theorem astNodeLabel_iff {node : AstNode} {text : List UInt8} :
    astNodeLabel node = .ok text ↔ node.Readable ∧
      FitsBuffer ((nodeLabelPushes node).map List.length) ∧
      text = cString (nodeLabelPushes node).flatten := by
  let start : LoggedBuffer := ⟨dbufferInitSize 1000, []⟩
  have hlabel : ∀ {b : LoggedBuffer},
      LoggedBuffer.Written (start.pushStr (stringBytes "label=\"")) b (infoPushes node 0) →
      LoggedBuffer.Written start ((b.pushChar (byte '"')).pushChar 0) (nodeLabelPushes node) :=
    fun {b} h => ((start.written_pushData (stringBytes "label=\"")).trans h).trans
      ((b.written_pushData [byte '"']).trans (LoggedBuffer.written_pushData _ [0]))
  constructor
  · intro h
    unfold astNodeLabel at h
    obtain ⟨b, hb, hstored⟩ := exists_of_bind_ok h
    have hread := readable_of_astNodeInfoBuffer hb
    obtain ⟨b', hb', hwritten⟩ :=
      astNodeInfoBuffer_eq hread (start.pushStr (stringBytes "label=\"")) 0
    obtain rfl := Except.ok.inj (hb.symm.trans hb')
    exact ⟨hread, (storedString_iff (hlabel hwritten)).mp hstored⟩
  · rintro ⟨hread, hfits⟩
    obtain ⟨b, hb, hwritten⟩ :=
      astNodeInfoBuffer_eq hread (start.pushStr (stringBytes "label=\"")) 0
    unfold astNodeLabel
    dsimp only
    rw [hb, ok_bind]
    exact (storedString_iff (hlabel hwritten)).mpr hfits
