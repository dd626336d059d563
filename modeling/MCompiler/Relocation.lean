/-
# Labels and relocations (`relocation.c`)

A label collects the places of the code that will hold its offset once it is
known.  Two functions record a relocation while code is emitted; the others set the
offset of a label and write it, or its distance, into the places.
-/
import MCompiler.CInt

/-- `enum reloc_size`. -/
inductive RelocSize where
  | INT8 | INT16 | INT32 | INT64
  deriving DecidableEq, Repr

/-- `enum reloc_type`. -/
inductive RelocType where
  | RELATIVE | ABSOLUTE
  deriving DecidableEq, Repr

/-- `getRelocSize`. -/
def getRelocSize : RelocSize → ℕ
  | .INT8 => 1
  | .INT16 => 2
  | .INT32 => 4
  | .INT64 => 8

/-- `relocation_t`, without the link to the next one. -/
structure Relocation where
  type : RelocType
  size : RelocSize
  bias : ℤ
  offset : ℕ
  deriving DecidableEq, Repr

/-- `label_t`; the linked list of relocations, newest first, is a list. -/
structure Label where
  hasOffset : Bool := false
  offset : ℕ := 0
  relocations : List Relocation := []
  deriving DecidableEq, Repr

/-- `relocation_set`. -/
def relocationSet (label : Label) (type : RelocType) (size : RelocSize) (bias : ℤ)
    (offset : ℕ) : Label :=
  { label with relocations := ⟨type, size, bias, offset⟩ :: label.relocations }

/-- `relocation_emit` at a buffer of `usage` bytes: the label with the recorded
relocation and the placeholder bytes pushed. -/
def relocationEmit (usage : ℕ) (label : Label) (type : RelocType) (size : RelocSize)
    (bias : ℤ) : Label × List UInt8 :=
  (relocationSet label type size bias usage, List.replicate (getRelocSize size) 0)

/-! ## Applying relocations -/

/-- `label_setOffset`. -/
def labelSetOffset (label : Label) (offset : UInt64) : Label :=
  { label with offset := offset.toNat, hasOffset := true }

/-- `writeLong`: the low bytes of `num` at `offset` of the buffer. -/
def writeLong (buffer : List UInt8) (offset num : ℕ) : ℕ → List UInt8
  | 0 => buffer
  | bytes + 1 =>
      writeLong (buffer.set offset (UInt8.ofNat (num &&& 0xFF))) (offset + 1) (num >>> 8) bytes

/-- The value that `relocation_apply` computes, in `uint64_t`. -/
def relocationValue (relocation : Relocation) (offset : ℕ) (memLocation : UInt64) : ℕ :=
  match relocation.type with
  | .ABSOLUTE => offset % 2 ^ 64
  | .RELATIVE =>
      (((offset : ℤ) - (memLocation.toNat + relocation.offset + relocation.bias)) % 2 ^ 64).toNat

/-- The truncation to the size of the field. -/
def truncateValue : RelocSize → ℕ → ℕ
  | .INT8, value => value % 2 ^ 8
  | .INT16, value => value % 2 ^ 16
  | .INT32, value => value % 2 ^ 32
  | .INT64, value => value

/-- `relocation_apply`. -/
def relocationApply (relocation : Relocation) (buffer : List UInt8) (offset : ℕ)
    (memLocation : UInt64) : List UInt8 :=
  writeLong buffer relocation.offset
    (truncateValue relocation.size (relocationValue relocation offset memLocation))
    (getRelocSize relocation.size)

/-- `label_applyMemory`: the label without its relocations, and the buffer. -/
def labelApplyMemory (label : Label) (buffer : List UInt8) (memLocation : UInt64) :
    Label × List UInt8 :=
  ({ label with relocations := [] },
    label.relocations.foldl
      (fun buffer relocation => relocationApply relocation buffer label.offset memLocation) buffer)
