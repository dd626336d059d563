/-
# Relocations patch exactly their fields

Code is emitted with fields for the labels that are not known yet, then the offsets of the
labels are set, and the labels are applied in some order.  `relocations_patch` : every field
holds its target or its distance, all other bytes stay as they are, no relocation is left,
and the order does not matter.
-/
import Mathlib.Data.Int.ModEq
import Mathlib.Logic.Function.Basic
import MCompiler.Lib.LittleEndian
import MCompiler.Lib.Patch
import MCompiler.Relocation

/-! ## Emitting code -/

/-- The bytes of a buffer, and the labels. -/
structure CodeBuffer where
  buffer : List UInt8
  labels : ℕ → Label

/-- A byte that is pushed, or a call of `relocation_emit` for a label. -/
inductive CodeOp where
  | push (byte : UInt8)
  | relocation (label : ℕ) (type : RelocType) (size : RelocSize) (bias : ℤ)

/-- A relocation, with its label. -/
structure CodeField where
  label : ℕ
  relocation : Relocation
  deriving DecidableEq

/-- One operation. -/
def codeStep (code : CodeBuffer) : CodeOp → CodeBuffer
  | .push byte => { code with buffer := code.buffer ++ [byte] }
  | .relocation l type size bias =>
      let (label, field) :=
        relocationEmit code.buffer.length (code.labels l) type size bias
      ⟨code.buffer ++ field, Function.update code.labels l label⟩

/-- A sequence of operations. -/
def codeRun (code : CodeBuffer) (ops : List CodeOp) : CodeBuffer := ops.foldl codeStep code

/-- The number of bytes that an operation pushes. -/
def CodeOp.size : CodeOp → ℕ
  | .push _ => 1
  | .relocation _ _ size _ => getRelocSize size

/-- The fields that operations emit from a position on. -/
def fieldsFrom : ℕ → List CodeOp → List CodeField
  | _, [] => []
  | usage, .push _ :: ops => fieldsFrom (usage + 1) ops
  | usage, .relocation l type size bias :: ops =>
      ⟨l, type, size, bias, usage⟩ :: fieldsFrom (usage + getRelocSize size) ops

theorem length_codeStep (code : CodeBuffer) (op : CodeOp) :
    (codeStep code op).buffer.length = code.buffer.length + op.size := by
  cases op with
  | push byte => exact List.length_append
  | relocation l type size bias =>
      show (code.buffer ++ List.replicate (getRelocSize size) 0).length = _
      rw [List.length_append, List.length_replicate]
      rfl

theorem length_codeRun (code : CodeBuffer) (ops : List CodeOp) :
    (codeRun code ops).buffer.length = code.buffer.length + (ops.map CodeOp.size).sum := by
  induction ops generalizing code with
  | nil => rfl
  | cons op ops ih =>
      rw [show codeRun code (op :: ops) = codeRun (codeStep code op) ops from rfl, ih,
        length_codeStep, List.map_cons, List.sum_cons, Nat.add_assoc]

/-- A field lies in the code that the operations emit. -/
theorem fieldsFrom_bounds {ops : List CodeOp} {usage : ℕ} {f : CodeField}
    (hf : f ∈ fieldsFrom usage ops) : usage ≤ f.relocation.offset ∧
      f.relocation.offset + getRelocSize f.relocation.size ≤
        usage + (ops.map CodeOp.size).sum := by
  induction ops generalizing usage with
  | nil => exact absurd hf List.not_mem_nil
  | cons op ops ih =>
      rw [List.map_cons, List.sum_cons]
      cases op with
      | push byte =>
          obtain ⟨hlo, hhi⟩ := ih hf
          have hsize : (CodeOp.push byte).size = 1 := rfl
          omega
      | relocation l type size bias =>
          have hsize : (CodeOp.relocation l type size bias).size = getRelocSize size := rfl
          rcases List.mem_cons.mp hf with rfl | hf
          · show usage ≤ usage ∧ usage + getRelocSize size ≤ _
            omega
          · obtain ⟨hlo, hhi⟩ := ih hf
            omega

/-- **The relocations of a label** are the fields that were emitted for it. -/
theorem codeRun_relocations (code : CodeBuffer) (ops : List CodeOp) (l : ℕ) (r : Relocation) :
    r ∈ ((codeRun code ops).labels l).relocations ↔
      r ∈ (code.labels l).relocations ∨ ⟨l, r⟩ ∈ fieldsFrom code.buffer.length ops := by
  induction ops generalizing code with
  | nil => simp [codeRun, fieldsFrom]
  | cons op ops ih =>
      rw [show codeRun code (op :: ops) = codeRun (codeStep code op) ops from rfl, ih,
        length_codeStep]
      cases op with
      | push byte => exact Iff.rfl
      | relocation l' type size bias =>
          show r ∈ (Function.update code.labels l' _ l).relocations ∨ _ ↔
            _ ∨ _ ∈ _ :: fieldsFrom _ ops
          by_cases hl : l = l'
          · subst hl
            rw [Function.update_self]
            show r ∈ (⟨type, size, bias, code.buffer.length⟩ :: (code.labels l).relocations) ∨ _ ↔ _
            rw [List.mem_cons, List.mem_cons, CodeField.mk.injEq]
            simp only [true_and]
            tauto
          · rw [Function.update_of_ne hl, List.mem_cons, CodeField.mk.injEq]
            simp only [hl, false_and, false_or]
            rfl

/-! ## The fields -/

section Fields

variable (target : ℕ → UInt64) (memLocation : UInt64)

/-- The position of a field. -/
def CodeField.offset (f : CodeField) : ℕ := f.relocation.offset

/-- The bytes that a field gets. -/
def CodeField.bytes (f : CodeField) : List UInt8 :=
  bytesLE (getRelocSize f.relocation.size)
    (truncateValue f.relocation.size
      (relocationValue f.relocation (target f.label).toNat memLocation))

/-- What a field is to hold, as an integer: the target, or its distance. -/
def CodeField.value (f : CodeField) : ℤ :=
  match f.relocation.type with
  | .ABSOLUTE => (target f.label).toNat
  | .RELATIVE =>
      (target f.label).toNat -
        (memLocation.toNat + f.relocation.offset + f.relocation.bias)

/-- The number of values of a field. -/
def CodeField.modulus (f : CodeField) : ℤ := 2 ^ (8 * getRelocSize f.relocation.size)

@[simp] theorem length_bytes (f : CodeField) :
    (f.bytes target memLocation).length = getRelocSize f.relocation.size := length_bytesLE _ _

/-- The loop of `writeLong` overwrites a part of the buffer. -/
theorem writeLong_eq_patch (buffer : List UInt8) (offset num bytes : ℕ) :
    writeLong buffer offset num bytes = patch buffer offset (bytesLE bytes num) := by
  induction bytes generalizing buffer offset num with
  | zero => rfl
  | succ bytes ih =>
      rw [writeLong, ih, ofNat_and_255, Nat.shiftRight_eq_div_pow]
      rfl

theorem relocationApply_eq_patch (f : CodeField) (buffer : List UInt8) :
    relocationApply f.relocation buffer (target f.label).toNat memLocation =
      patch buffer f.offset (f.bytes target memLocation) :=
  writeLong_eq_patch _ _ _ _

/-- The value that is computed is the value that the field is to hold, up to 64 bits. -/
theorem relocationValue_modEq (f : CodeField) :
    (relocationValue f.relocation (target f.label).toNat memLocation : ℤ) ≡
      f.value target memLocation [ZMOD 2 ^ 64] := by
  unfold relocationValue CodeField.value
  cases f.relocation.type with
  | ABSOLUTE =>
      show (((target f.label).toNat % 2 ^ 64 : ℕ) : ℤ) ≡ _ [ZMOD 2 ^ 64]
      rw [Int.natCast_mod]
      exact Int.mod_modEq _ _
  | RELATIVE =>
      show ((Int.toNat _ : ℕ) : ℤ) ≡ _ [ZMOD 2 ^ 64]
      rw [Int.toNat_of_nonneg (Int.emod_nonneg _ (by decide))]
      exact Int.mod_modEq _ _

/-- **The number in a field.** -/
theorem ofBytesLE_bytes (f : CodeField) :
    (ofBytesLE (f.bytes target memLocation) : ℤ) = f.value target memLocation % f.modulus := by
  unfold CodeField.bytes
  rw [ofBytesLE_bytesLE]
  have hmod := relocationValue_modEq target memLocation f
  generalize relocationValue f.relocation (target f.label).toNat memLocation = v at hmod ⊢
  unfold CodeField.modulus
  cases f.relocation.size with
  | INT8 =>
      have h : (v : ℤ) ≡ f.value target memLocation [ZMOD 2 ^ 8] :=
        hmod.of_dvd (by decide)
      show ((v % 2 ^ 8 % 256 ^ 1 : ℕ) : ℤ) = _ % 2 ^ 8
      rw [show (256 : ℕ) ^ 1 = 2 ^ 8 from rfl, Nat.mod_mod, Int.natCast_mod]
      exact h
  | INT16 =>
      have h : (v : ℤ) ≡ f.value target memLocation [ZMOD 2 ^ 16] :=
        hmod.of_dvd (by decide)
      show ((v % 2 ^ 16 % 256 ^ 2 : ℕ) : ℤ) = _ % 2 ^ 16
      rw [show (256 : ℕ) ^ 2 = 2 ^ 16 from rfl, Nat.mod_mod, Int.natCast_mod]
      exact h
  | INT32 =>
      have h : (v : ℤ) ≡ f.value target memLocation [ZMOD 2 ^ 32] :=
        hmod.of_dvd (by decide)
      show ((v % 2 ^ 32 % 256 ^ 4 : ℕ) : ℤ) = _ % 2 ^ 32
      rw [show (256 : ℕ) ^ 4 = 2 ^ 32 from rfl, Nat.mod_mod, Int.natCast_mod]
      exact h
  | INT64 =>
      show ((v % 256 ^ 8 : ℕ) : ℤ) = _ % 2 ^ 64
      rw [show (256 : ℕ) ^ 8 = 2 ^ 64 from rfl, Int.natCast_mod]
      exact hmod

/-- The fields are apart from each other, whatever memory location each label has. -/
theorem fieldsFrom_apart (memLocation : ℕ → UInt64) (ops : List CodeOp) (usage : ℕ) :
    (fieldsFrom usage ops).Pairwise
      (Apart CodeField.offset fun f => f.bytes target (memLocation f.label)) := by
  induction ops generalizing usage with
  | nil => exact List.Pairwise.nil
  | cons op ops ih =>
      cases op with
      | push byte => exact ih _
      | relocation l type size bias =>
          refine List.Pairwise.cons (fun f hf => .inl ?_) (ih _)
          rw [length_bytes]
          exact (fieldsFrom_bounds hf).1

end Fields

/-! ## Applying the labels -/

/-- `label_setOffset` for each label. -/
def setOffsets (code : CodeBuffer) (target : ℕ → UInt64) : CodeBuffer :=
  { code with labels := fun l => labelSetOffset (code.labels l) (target l) }

/-- `label_applyMemory` for the label `l`. -/
def applyLabel (memLocation : UInt64) (code : CodeBuffer) (l : ℕ) : CodeBuffer :=
  let (label, buffer) := labelApplyMemory (code.labels l) code.buffer memLocation
  ⟨buffer, Function.update code.labels l label⟩

/-- The labels in an order. -/
def applyLabels (memLocation : UInt64) (code : CodeBuffer) (order : List ℕ) : CodeBuffer :=
  order.foldl (applyLabel memLocation) code

/-- The labels of which `done` holds have been applied, each with its memory location. -/
structure LabelsApplied (target memLocation : ℕ → UInt64) (fields : List CodeField)
    (orig : List UInt8) (done : ℕ → Prop) (code : CodeBuffer) : Prop where
  buffer : Applied CodeField.offset (fun f => f.bytes target (memLocation f.label)) fields
    (fun f => done f.label) orig code.buffer
  offset : ∀ l, (code.labels l).offset = (target l).toNat
  none_left : ∀ l, done l → (code.labels l).relocations = []
  pending : ∀ l, ¬ done l → ∀ r, r ∈ (code.labels l).relocations ↔ ⟨l, r⟩ ∈ fields

section Apply

variable {target memLocation : ℕ → UInt64} {fields : List CodeField} {orig : List UInt8}

/-- **One more label.** -/
theorem LabelsApplied.step {done : ℕ → Prop} {code : CodeBuffer}
    (h : LabelsApplied target memLocation fields orig done code)
    (happart : fields.Pairwise
      (Apart CodeField.offset fun f => f.bytes target (memLocation f.label)))
    (hfits : ∀ f ∈ fields, f.offset + (f.bytes target (memLocation f.label)).length ≤ orig.length)
    (l : ℕ) :
    LabelsApplied target memLocation fields orig (fun l' => done l' ∨ l' = l)
      (applyLabel (memLocation l) code l) where
  buffer := by
    have hfold : (applyLabel (memLocation l) code l).buffer =
        ((code.labels l).relocations.map (CodeField.mk l)).foldl
          (fun b f => patch b f.offset (f.bytes target (memLocation f.label))) code.buffer := by
      rw [List.foldl_map]
      refine List.foldl_ext _ _ _ fun b r _ => ?_
      rw [h.offset l]
      exact relocationApply_eq_patch target (memLocation l) ⟨l, r⟩ b
    rw [hfold]
    by_cases hdone : done l
    · rw [h.none_left l hdone]
      refine h.buffer.congr fun f _ => ⟨.inl, ?_⟩
      rintro (hf | rfl)
      · exact hf
      · exact hdone
    · have hmem : ∀ f ∈ (code.labels l).relocations.map (CodeField.mk l), f ∈ fields := by
        intro f hf
        obtain ⟨r, hr, rfl⟩ := List.mem_map.mp hf
        exact (h.pending l hdone r).mp hr
      refine (h.buffer.foldl happart hfits hmem).congr fun f hf => ?_
      refine or_congr Iff.rfl ⟨fun hf' => ?_, fun hl => ?_⟩
      · obtain ⟨r, -, rfl⟩ := List.mem_map.mp hf'
        rfl
      · subst hl
        exact List.mem_map.mpr ⟨f.relocation, (h.pending _ hdone _).mpr hf, rfl⟩
  offset l' := by
    show (Function.update code.labels l _ l').offset = _
    by_cases hl : l' = l
    · subst hl
      rw [Function.update_self]
      exact h.offset l'
    · rw [Function.update_of_ne hl]
      exact h.offset l'
  none_left l' hdone := by
    show (Function.update code.labels l _ l').relocations = []
    by_cases hl : l' = l
    · subst hl
      rw [Function.update_self]
    · rw [Function.update_of_ne hl]
      exact h.none_left l' (hdone.resolve_right hl)
  pending l' hdone := by
    obtain ⟨hdone', hl⟩ := not_or.mp hdone
    show ∀ r, r ∈ (Function.update code.labels l _ l').relocations ↔ _
    rw [Function.update_of_ne hl]
    exact h.pending l' hdone'

/-- The labels in an order. -/
theorem LabelsApplied.run {done : ℕ → Prop} {code : CodeBuffer}
    (h : LabelsApplied target memLocation fields orig done code)
    (happart : fields.Pairwise
      (Apart CodeField.offset fun f => f.bytes target (memLocation f.label)))
    (hfits : ∀ f ∈ fields, f.offset + (f.bytes target (memLocation f.label)).length ≤ orig.length)
    (order : List ℕ) :
    LabelsApplied target memLocation fields orig (fun l => done l ∨ l ∈ order)
      (order.foldl (fun code l => applyLabel (memLocation l) code l) code) := by
  induction order generalizing done code with
  | nil =>
      have hiff : (fun l => done l ∨ l ∈ ([] : List ℕ)) = done := by
        funext l
        simp
      rw [hiff]
      exact h
  | cons l order ih =>
      have hiff : (fun l' => done l' ∨ l' ∈ l :: order) =
          fun l' => (done l' ∨ l' = l) ∨ l' ∈ order := by
        funext l'
        rw [List.mem_cons, or_assoc]
      rw [hiff]
      exact ih (h.step happart hfits l)

end Apply

/-! ## The result -/

/-- What the patched buffer is like, compared with the one before. -/
structure Patched (target : ℕ → UInt64) (memLocation : UInt64) (fields : List CodeField)
    (orig buffer : List UInt8) : Prop where
  length : buffer.length = orig.length
  value : ∀ f ∈ fields,
    (ofBytesLE ((buffer.drop f.offset).take (getRelocSize f.relocation.size)) : ℤ) =
      f.value target memLocation % f.modulus
  lands : ∀ f ∈ fields, f.relocation.type = .RELATIVE →
    f.relocation.bias = getRelocSize f.relocation.size →
    ((ofBytesLE ((buffer.drop f.offset).take (getRelocSize f.relocation.size)) : ℤ).bmod
        (2 ^ (8 * getRelocSize f.relocation.size)) +
      (memLocation.toNat + f.offset + getRelocSize f.relocation.size)) % f.modulus =
        ((target f.label).toNat : ℤ) % f.modulus
  unchanged : ∀ i, (∀ f ∈ fields, ¬ (f.offset ≤ i ∧
    i < f.offset + getRelocSize f.relocation.size)) → buffer[i]? = orig[i]?

/-- A sign-extended distance leads to the target. -/
theorem add_bmod_emod {v t d : ℤ} {n : ℕ} (h : v = t - d) :
    ((v % (n : ℤ)).bmod n + d) % n = t % n := by
  subst h
  rw [← Int.emod_add_emod, Int.bmod_emod, Int.emod_emod_of_dvd _ (dvd_refl _),
    Int.emod_add_emod, Int.sub_add_cancel]

/-- **Relocations patch exactly their fields**, in whatever order the labels are applied. -/
theorem relocations_patch (start : List UInt8) (ops : List CodeOp) (target : ℕ → UInt64)
    (memLocation : UInt64) (order : List ℕ)
    (hall : ∀ f ∈ fieldsFrom start.length ops, f.label ∈ order) :
    let code := codeRun ⟨start, fun _ => {}⟩ ops
    let result := applyLabels memLocation (setOffsets code target) order
    Patched target memLocation (fieldsFrom start.length ops) code.buffer result.buffer ∧
      (∀ l, (result.labels l).relocations = []) ∧
      ∀ order' : List ℕ, (∀ f ∈ fieldsFrom start.length ops, f.label ∈ order') →
        (applyLabels memLocation (setOffsets code target) order').buffer = result.buffer := by
  intro code result
  have happart := fieldsFrom_apart target (fun _ => memLocation) ops start.length
  have hfits : ∀ f ∈ fieldsFrom start.length ops,
      f.offset + (f.bytes target memLocation).length ≤ code.buffer.length := by
    intro f hf
    rw [length_bytes, length_codeRun]
    exact (fieldsFrom_bounds hf).2
  have hstart : LabelsApplied target (fun _ => memLocation) (fieldsFrom start.length ops)
      code.buffer (fun _ => False) (setOffsets code target) := {
    buffer := Applied.start _ _ _ _
    offset := fun _ => rfl
    none_left := fun _ h => h.elim
    pending := fun l _ r => by
      show r ∈ (code.labels l).relocations ↔ _
      rw [codeRun_relocations]
      simp }
  have hrun : ∀ order : List ℕ, LabelsApplied target (fun _ => memLocation)
      (fieldsFrom start.length ops) code.buffer (fun l => False ∨ l ∈ order)
      (applyLabels memLocation (setOffsets code target) order) :=
    fun order => hstart.run happart hfits order
  -- all fields are done at the end, whatever the order
  have hdone : ∀ order : List ℕ, (∀ f ∈ fieldsFrom start.length ops, f.label ∈ order) →
      Applied CodeField.offset (CodeField.bytes target memLocation)
        (fieldsFrom start.length ops) (fun _ => True) code.buffer
        (applyLabels memLocation (setOffsets code target) order).buffer := by
    intro order hall
    have hbuffer : Applied CodeField.offset (CodeField.bytes target memLocation)
        (fieldsFrom start.length ops) (fun f => False ∨ f.label ∈ order) code.buffer
        (applyLabels memLocation (setOffsets code target) order).buffer := (hrun order).buffer
    exact hbuffer.congr fun f hf => ⟨fun _ => trivial, fun _ => .inr (hall f hf)⟩
  have hend := hdone order hall
  have hvalue : ∀ f ∈ fieldsFrom start.length ops,
      (ofBytesLE ((result.buffer.drop f.offset).take (getRelocSize f.relocation.size)) : ℤ) =
        f.value target memLocation % f.modulus := by
    intro f hf
    have hpiece := hend.take_drop hf trivial
    rw [length_bytes] at hpiece
    rw [hpiece, ofBytesLE_bytes]
  have hsame : ∀ order' : List ℕ, (∀ f ∈ fieldsFrom start.length ops, f.label ∈ order') →
      (applyLabels memLocation (setOffsets code target) order').buffer = result.buffer :=
    fun order' hall' => (hdone order' hall').unique hend
  refine ⟨⟨hend.length, hvalue, ?_, ?_⟩, fun l => ?_, hsame⟩
  · intro f hf htype hbias
    rw [hvalue f hf]
    have hval : f.value target memLocation = (target f.label).toNat -
        (memLocation.toNat + f.offset + getRelocSize f.relocation.size) := by
      unfold CodeField.value
      rw [htype, hbias]
      rfl
    have hmodulus : f.modulus = ((2 ^ (8 * getRelocSize f.relocation.size) : ℕ) : ℤ) := by
      unfold CodeField.modulus
      push_cast
      rfl
    rw [hmodulus]
    exact add_bmod_emod hval
  · intro i hi
    exact hend.outside i fun f hf _ hcov => hi f hf (length_bytes target memLocation f ▸ hcov)
  · by_cases hl : l ∈ order
    · exact (hrun order).none_left l (.inr hl)
    · apply List.eq_nil_iff_forall_not_mem.mpr
      intro r hr
      have hmem := ((hrun order).pending l (fun h => h.elim id hl) r).mp hr
      exact hl (hall _ hmem)

/-- A byte, and two fields for two labels, applied in one of the orders. -/
theorem relocations_patch_example :
    let ops := [.push 0xE9, .relocation 1 .RELATIVE .INT32 4, .relocation 0 .ABSOLUTE .INT16 0]
    let code := codeRun ⟨[], fun _ => {}⟩ ops
    let result := applyLabels 0x400000 (setOffsets code fun _ => 0x400010) [0, 1]
    Patched (fun _ => 0x400010) 0x400000 (fieldsFrom 0 ops) code.buffer result.buffer ∧
      (∀ l, (result.labels l).relocations = []) ∧
      ∀ order' : List ℕ, (∀ f ∈ fieldsFrom 0 ops, f.label ∈ order') →
        (applyLabels 0x400000 (setOffsets code fun _ => 0x400010) order').buffer =
          result.buffer :=
  relocations_patch [] _ _ _ _ (by decide)
