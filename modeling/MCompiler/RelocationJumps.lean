/-
# Short jumps

A short jump has one byte for the distance to its label, and `relocation_apply` keeps the
low byte of a distance that does not fit.  `shortJump_lands_iff` : after the label has been
applied the jump leads to it exactly when the distance is in the range of a signed byte,
whatever is emitted, set and applied before, in between and afterwards.
-/
import MCompiler.RelocationCorrect
import MCompiler.X86Assembly

/-! ## Emitting and applying in any order -/

/-- An operation on the code or on a label. -/
inductive LabelEvent where
  | code (op : CodeOp)
  | setOffset (label : ℕ) (offset : UInt64)
  | apply (label : ℕ) (memLocation : UInt64)

/-- One operation. -/
def labelStep (code : CodeBuffer) : LabelEvent → CodeBuffer
  | .code op => codeStep code op
  | .setOffset l offset =>
      { code with labels := Function.update code.labels l (labelSetOffset (code.labels l) offset) }
  | .apply l memLocation => applyLabel memLocation code l

/-- A sequence of operations. -/
def labelRun (code : CodeBuffer) (events : List LabelEvent) : CodeBuffer :=
  events.foldl labelStep code

/-- The two short jumps. -/
inductive ShortJump where
  | jump
  | jumpZero
  deriving DecidableEq

/-- `emit_jumpRel8` and `emit_jumpZeroRel8`. -/
def ShortJump.emit : ShortJump → ℕ → Label → Label × List UInt8
  | .jump => emitJumpRel8
  | .jumpZero => emitJumpZeroRel8

/-- A short jump to the label `l`. -/
def CodeBuffer.shortJump (code : CodeBuffer) (kind : ShortJump) (l : ℕ) : CodeBuffer :=
  let (label, bytes) := kind.emit code.buffer.length (code.labels l)
  ⟨code.buffer ++ bytes, Function.update code.labels l label⟩

/-- The displacement byte as the processor reads it. -/
def signedByte (byte : UInt8) : ℤ := (byte.toNat : ℤ).bmod (2 ^ 8)

/-- The short jump with its displacement at `p` leads to `target`, in code at `memLocation`. -/
def LandsAt (memLocation : UInt64) (buffer : List UInt8) (p : ℕ) (target : ℤ) : Prop :=
  ∃ byte, buffer[p]? = some byte ∧ (memLocation.toNat + (p + 1) : ℤ) + signedByte byte = target

/-! ## Places that are still to be patched -/

/-- The relocation patches the byte `p`. -/
def Relocation.CoversByte (r : Relocation) (p : ℕ) : Prop :=
  r.offset ≤ p ∧ p < r.offset + getRelocSize r.size

/-- The relocations lie in the code that has been emitted. -/
def PlacesEmitted (code : CodeBuffer) : Prop :=
  ∀ l, ∀ r ∈ (code.labels l).relocations, r.offset + getRelocSize r.size ≤ code.buffer.length

/-- No relocation will patch the byte `p`. -/
structure ByteSettled (p : ℕ) (code : CodeBuffer) : Prop where
  emitted : p < code.buffer.length
  covers : ∀ l, ∀ r ∈ (code.labels l).relocations, ¬ r.CoversByte p

/-- One relocation will patch the byte `p`: that of the short jump to `l`. -/
structure JumpPending (p l : ℕ) (code : CodeBuffer) : Prop where
  emitted : p < code.buffer.length
  jump : ∃ newer older : List Relocation,
    (code.labels l).relocations = newer ++ ⟨.RELATIVE, .INT8, 1, p⟩ :: older ∧
      (∀ r ∈ newer, ¬ r.CoversByte p) ∧ ∀ r ∈ older, ¬ r.CoversByte p
  others : ∀ l', l' ≠ l → ∀ r ∈ (code.labels l').relocations, ¬ r.CoversByte p

/-! ## Applying a label -/

section Apply

variable (offset : ℕ) (memLocation : UInt64)

@[simp] theorem length_relocationApply (r : Relocation) (buffer : List UInt8) :
    (relocationApply r buffer offset memLocation).length = buffer.length := by
  unfold relocationApply
  rw [writeLong_eq_patch, length_patch]

theorem getElem?_relocationApply {r : Relocation} {p : ℕ} (h : ¬ r.CoversByte p)
    (buffer : List UInt8) : (relocationApply r buffer offset memLocation)[p]? = buffer[p]? := by
  unfold relocationApply
  rw [writeLong_eq_patch]
  apply getElem?_patch_of_outside
  rw [length_bytesLE]
  unfold Relocation.CoversByte at h
  omega

/-- The byte that a short jump gets. -/
theorem getElem?_relocationApply_jump {buffer : List UInt8} {p : ℕ} (hp : p < buffer.length) :
    ∃ byte, (relocationApply ⟨.RELATIVE, .INT8, 1, p⟩ buffer offset memLocation)[p]? = some byte ∧
      (byte.toNat : ℤ) = ((offset : ℤ) - (memLocation.toNat + p + 1)) % 2 ^ 8 := by
  generalize hvalue : relocationValue ⟨.RELATIVE, .INT8, 1, p⟩ offset memLocation = value
  refine ⟨UInt8.ofNat (value % 2 ^ 8), ?_, ?_⟩
  · unfold relocationApply
    rw [hvalue, writeLong_eq_patch]
    show (patch buffer p (bytesLE 1 (value % 2 ^ 8)))[p + 0]? = _
    exact getElem?_patch_of_inside buffer Nat.zero_lt_one hp
  · rw [UInt8.toNat_ofNat', Nat.mod_mod, ← hvalue]
    show ((Int.toNat _ % 2 ^ 8 : ℕ) : ℤ) = _
    rw [Int.natCast_mod, Int.toNat_of_nonneg (Int.emod_nonneg _ (by decide))]
    exact Int.emod_emod_of_dvd _ (by decide)

theorem length_foldl_relocationApply (l : List Relocation) (buffer : List UInt8) :
    (l.foldl (fun buffer r => relocationApply r buffer offset memLocation) buffer).length =
      buffer.length := by
  induction l generalizing buffer with
  | nil => rfl
  | cons r l ih => rw [List.foldl_cons, ih, length_relocationApply]

theorem getElem?_foldl_relocationApply {l : List Relocation} {p : ℕ}
    (h : ∀ r ∈ l, ¬ r.CoversByte p) (buffer : List UInt8) :
    (l.foldl (fun buffer r => relocationApply r buffer offset memLocation) buffer)[p]? =
      buffer[p]? := by
  induction l generalizing buffer with
  | nil => rfl
  | cons r l ih =>
      rw [List.foldl_cons, ih fun r' hr' => h r' (List.mem_cons_of_mem r hr')]
      exact getElem?_relocationApply offset memLocation (h r List.mem_cons_self) buffer

end Apply

/-! ## What the operations keep -/

section Keep

variable {p l : ℕ} {code : CodeBuffer}

/-- The relocations of a label after an operation were there before, are at the end of the
code, or have been applied with it. -/
theorem mem_relocations_labelStep {event : LabelEvent} {l : ℕ} {r : Relocation}
    (hr : r ∈ ((labelStep code event).labels l).relocations) :
    r ∈ (code.labels l).relocations ∨ r.offset = code.buffer.length ∧
      r.offset + getRelocSize r.size ≤ (labelStep code event).buffer.length := by
  cases event with
  | code op =>
      cases op with
      | push byte => exact .inl hr
      | relocation l' type size bias =>
          by_cases hl : l = l'
          · subst hl
            have hmem : r ∈ (Function.update code.labels l _ l).relocations := hr
            rw [Function.update_self] at hmem
            rcases List.mem_cons.mp hmem with rfl | hold
            · refine .inr ⟨rfl, Nat.le_of_eq ?_⟩
              exact (length_codeStep code (.relocation l type size bias)).symm
            · exact .inl hold
          · have hmem : r ∈ (Function.update code.labels l' _ l).relocations := hr
            rw [Function.update_of_ne hl] at hmem
            exact .inl hmem
  | setOffset l' offset =>
      by_cases hl : l = l'
      · subst hl
        have hmem : r ∈ (Function.update code.labels l _ l).relocations := hr
        rw [Function.update_self] at hmem
        exact .inl hmem
      · have hmem : r ∈ (Function.update code.labels l' _ l).relocations := hr
        rw [Function.update_of_ne hl] at hmem
        exact .inl hmem
  | apply l' memLocation =>
      by_cases hl : l = l'
      · subst hl
        have hmem : r ∈ (Function.update code.labels l _ l).relocations := hr
        rw [Function.update_self] at hmem
        cases hmem
      · have hmem : r ∈ (Function.update code.labels l' _ l).relocations := hr
        rw [Function.update_of_ne hl] at hmem
        exact .inl hmem

/-- The code only grows. -/
theorem length_labelStep (code : CodeBuffer) (event : LabelEvent) :
    code.buffer.length ≤ (labelStep code event).buffer.length := by
  cases event with
  | code op => exact (length_codeStep code op).symm ▸ Nat.le_add_right _ _
  | setOffset l offset => exact Nat.le_refl _
  | apply l memLocation => exact Nat.le_of_eq (length_foldl_relocationApply _ _ _ _).symm

theorem PlacesEmitted.step (h : PlacesEmitted code) (event : LabelEvent) :
    PlacesEmitted (labelStep code event) := by
  intro l r hr
  rcases mem_relocations_labelStep hr with hold | ⟨-, hnew⟩
  · exact (h l r hold).trans (length_labelStep code event)
  · exact hnew

theorem PlacesEmitted.run (h : PlacesEmitted code) (events : List LabelEvent) :
    PlacesEmitted (labelRun code events) := by
  induction events generalizing code with
  | nil => exact h
  | cons event events ih => exact ih (h.step event)

/-- A byte that no relocation will patch stays as it is. -/
theorem ByteSettled.step (h : ByteSettled p code) (event : LabelEvent) :
    ByteSettled p (labelStep code event) ∧
      (labelStep code event).buffer[p]? = code.buffer[p]? := by
  refine ⟨⟨Nat.lt_of_lt_of_le h.emitted (length_labelStep code event), fun l r hr => ?_⟩, ?_⟩
  · rcases mem_relocations_labelStep hr with hold | ⟨hnew, -⟩
    · exact h.covers l r hold
    · -- a new relocation stands behind the byte
      intro hcover
      exact absurd (hnew ▸ hcover.1) (Nat.not_le_of_lt h.emitted)
  · cases event with
    | code op =>
        cases op with
        | push byte => exact List.getElem?_append_left h.emitted
        | relocation l type size bias => exact List.getElem?_append_left h.emitted
    | setOffset l offset => rfl
    | apply l memLocation => exact getElem?_foldl_relocationApply _ _ (h.covers l) _

theorem ByteSettled.run (h : ByteSettled p code) (events : List LabelEvent) :
    (labelRun code events).buffer[p]? = code.buffer[p]? := by
  induction events generalizing code with
  | nil => rfl
  | cons event events ih => exact (ih (h.step event).1).trans (h.step event).2

/-- Until its label is applied, a short jump waits for it. -/
theorem JumpPending.step (h : JumpPending p l code) {event : LabelEvent}
    (hevent : ∀ memLocation, event ≠ .apply l memLocation) :
    JumpPending p l (labelStep code event) := by
  have hlength := Nat.lt_of_lt_of_le h.emitted (length_labelStep code event)
  have hothers : ∀ l', l' ≠ l → ∀ r ∈ ((labelStep code event).labels l').relocations,
      ¬ r.CoversByte p := by
    intro l' hl' r hr
    rcases mem_relocations_labelStep hr with hold | ⟨hnew, -⟩
    · exact h.others l' hl' r hold
    · intro hcover
      exact absurd (hnew ▸ hcover.1) (Nat.not_le_of_lt h.emitted)
  refine ⟨hlength, ?_, hothers⟩
  obtain ⟨newer, older, hjump, hnewer, holder⟩ := h.jump
  cases event with
  | code op =>
      cases op with
      | push byte => exact ⟨newer, older, hjump, hnewer, holder⟩
      | relocation l' type size bias =>
          show ∃ newer older : List Relocation,
            (Function.update code.labels l' _ l).relocations = _ ∧ _
          by_cases hl : l = l'
          · subst hl
            rw [Function.update_self]
            refine ⟨⟨type, size, bias, code.buffer.length⟩ :: newer, older, ?_, ?_, holder⟩
            · exact congrArg (List.cons _) hjump
            · intro r hr
              rcases List.mem_cons.mp hr with rfl | hr
              · exact fun hcover => absurd hcover.1 (Nat.not_le_of_lt h.emitted)
              · exact hnewer r hr
          · rw [Function.update_of_ne hl]
            exact ⟨newer, older, hjump, hnewer, holder⟩
  | setOffset l' offset =>
      show ∃ newer older : List Relocation, (Function.update code.labels l' _ l).relocations = _ ∧ _
      by_cases hl : l = l'
      · subst hl
        rw [Function.update_self]
        exact ⟨newer, older, hjump, hnewer, holder⟩
      · rw [Function.update_of_ne hl]
        exact ⟨newer, older, hjump, hnewer, holder⟩
  | apply l' memLocation =>
      have hl : l ≠ l' := by
        rintro rfl
        exact hevent memLocation rfl
      show ∃ newer older : List Relocation, (Function.update code.labels l' _ l).relocations = _ ∧ _
      rw [Function.update_of_ne hl]
      exact ⟨newer, older, hjump, hnewer, holder⟩

theorem JumpPending.run (h : JumpPending p l code) {events : List LabelEvent}
    (hevents : ∀ memLocation, .apply l memLocation ∉ events) :
    JumpPending p l (labelRun code events) := by
  induction events generalizing code with
  | nil => exact h
  | cons event events ih =>
      refine ih (h.step fun memLocation hevent => ?_) fun memLocation hmem => ?_
      · exact hevents memLocation (hevent ▸ List.mem_cons_self)
      · exact hevents memLocation (List.mem_cons_of_mem event hmem)

end Keep

/-! ## The jump -/

section Jump

variable {code : CodeBuffer} {l : ℕ}

/-- The code of a short jump: the opcode, and a byte for the displacement. -/
theorem exists_shortJump (code : CodeBuffer) (kind : ShortJump) (l : ℕ) : ∃ opcode : UInt8,
    (code.shortJump kind l).buffer = code.buffer ++ [opcode, 0] ∧
    (code.shortJump kind l).labels = Function.update code.labels l
      (relocationSet (code.labels l) .RELATIVE .INT8 1 (code.buffer.length + 1)) := by
  cases kind with
  | jump => exact ⟨0xEB, rfl, rfl⟩
  | jumpZero => exact ⟨0x75, rfl, rfl⟩

theorem PlacesEmitted.shortJump (h : PlacesEmitted code) (kind : ShortJump) (l : ℕ) :
    JumpPending (code.buffer.length + 1) l (code.shortJump kind l) := by
  obtain ⟨opcode, hbuffer, hlabels⟩ := exists_shortJump code kind l
  have hbelow : ∀ l', ∀ r ∈ (code.labels l').relocations,
      ¬ r.CoversByte (code.buffer.length + 1) := by
    intro l' r hr hcover
    have hplace := h l' r hr
    unfold Relocation.CoversByte at hcover
    omega
  refine ⟨?_, ⟨[], (code.labels l).relocations, ?_, ?_, hbelow l⟩, fun l' hl r hr => ?_⟩
  · rw [hbuffer, List.length_append]
    exact Nat.lt_succ_self _
  · rw [hlabels, Function.update_self]
    rfl
  · intro r hr
    cases hr
  · rw [hlabels, Function.update_of_ne hl] at hr
    exact hbelow l' r hr

/-- Applying the label settles the displacement: the low byte of the distance. -/
theorem JumpPending.apply {p : ℕ} (h : JumpPending p l code) (memLocation : UInt64) :
    ByteSettled p (applyLabel memLocation code l) ∧
      ∃ byte, (applyLabel memLocation code l).buffer[p]? = some byte ∧
        (byte.toNat : ℤ) = (((code.labels l).offset : ℤ) - (memLocation.toNat + p + 1)) % 2 ^ 8 := by
  obtain ⟨newer, older, hjump, hnewer, holder⟩ := h.jump
  have hlength : (applyLabel memLocation code l).buffer.length = code.buffer.length :=
    length_foldl_relocationApply _ _ _ _
  refine ⟨⟨hlength ▸ h.emitted, fun l' r hr => ?_⟩, ?_⟩
  · have hmem : r ∈ (Function.update code.labels l _ l').relocations := hr
    by_cases hl : l' = l
    · subst hl
      rw [Function.update_self] at hmem
      cases hmem
    · rw [Function.update_of_ne hl] at hmem
      exact h.others l' hl r hmem
  · obtain ⟨byte, hbyte, hvalue⟩ := getElem?_relocationApply_jump (code.labels l).offset memLocation
      (Nat.lt_of_lt_of_eq h.emitted
        (length_foldl_relocationApply (code.labels l).offset memLocation newer code.buffer).symm)
    refine ⟨byte, ?_, hvalue⟩
    show (List.foldl _ _ (code.labels l).relocations)[p]? = some byte
    rw [hjump, List.foldl_append, List.foldl_cons, getElem?_foldl_relocationApply _ _ holder]
    exact hbyte

/-- A distance is read back exactly when a signed byte holds it. -/
theorem signedByte_eq_iff {byte : UInt8} {d : ℤ} (h : (byte.toNat : ℤ) = d % 2 ^ 8) :
    signedByte byte = d ↔ -2 ^ 7 ≤ d ∧ d < 2 ^ 7 := by
  unfold signedByte
  rw [h]
  constructor
  · intro hd
    rw [← hd]
    exact ⟨Int.le_bmod (by decide), Int.bmod_lt (by decide)⟩
  · rintro ⟨hlo, hhi⟩
    exact (Int.emod_bmod d (2 ^ 8)).trans (Int.bmod_eq_of_le hlo hhi)

end Jump

/-- **Short jumps land on their labels exactly when the distance fits.**  The jump is emitted
after any operations, then come others that do not apply its label, then the label is applied,
and then others again. -/
theorem shortJump_lands_iff (start : List UInt8) (before between after : List LabelEvent)
    (kind : ShortJump) (l : ℕ) (memLocation : UInt64)
    (hbetween : ∀ memLocation, .apply l memLocation ∉ between) :
    let code := labelRun ⟨start, fun _ => {}⟩ before
    let p := code.buffer.length + 1
    let waiting := labelRun (code.shortJump kind l) between
    let result := labelRun (applyLabel memLocation waiting l) after
    let distance : ℤ := (waiting.labels l).offset - (memLocation.toNat + p + 1)
    LandsAt memLocation result.buffer p (waiting.labels l).offset ↔
      -2 ^ 7 ≤ distance ∧ distance < 2 ^ 7 := by
  intro code p waiting result distance
  have hplaces : PlacesEmitted code := by
    apply PlacesEmitted.run
    intro l r hr
    cases hr
  have hpending : JumpPending p l waiting := (hplaces.shortJump kind l).run hbetween
  obtain ⟨hsettled, byte, hbyte, hvalue⟩ := hpending.apply memLocation
  have hresult : result.buffer[p]? = some byte := (hsettled.run after).trans hbyte
  unfold LandsAt
  rw [hresult, ← signedByte_eq_iff hvalue]
  constructor
  · rintro ⟨byte', hbyte', hlands⟩
    obtain rfl := Option.some.inj hbyte'
    show signedByte byte = (waiting.labels l).offset - (memLocation.toNat + p + 1)
    omega
  · intro hdistance
    refine ⟨byte, rfl, ?_⟩
    rw [hdistance]
    omega

/-- A byte and the field of another label, which is applied in between. -/
def betweenJump : List LabelEvent :=
  [.code (.push 0x90), .code (.relocation 1 .RELATIVE .INT32 4), .setOffset 1 20, .apply 1 0,
    .setOffset 0 9]

/-- A jump over a byte and a field, to the `ret` behind them. -/
theorem shortJump_lands_betweenJump :
    let code := labelRun ⟨[0x90], fun _ => {}⟩ [.code (.push 0x90)]
    let p := code.buffer.length + 1
    let waiting := labelRun (code.shortJump .jumpZero 0) betweenJump
    let result := labelRun (applyLabel 0 waiting 0) [.code (.push 0xC3), .apply 1 0]
    let distance : ℤ := (waiting.labels 0).offset - ((0 : UInt64).toNat + p + 1)
    LandsAt 0 result.buffer p (waiting.labels 0).offset ↔
      -2 ^ 7 ≤ distance ∧ distance < 2 ^ 7 :=
  shortJump_lands_iff [0x90] [.code (.push 0x90)] betweenJump [.code (.push 0xC3), .apply 1 0]
    .jumpZero 0 0 (by simp [betweenJump])

/-- A jump over 128 bytes. -/
def jumpOver : List LabelEvent :=
  List.replicate 128 (.code (.push 0x90)) ++ [.setOffset 0 130]

/-- Its displacement is -128: it leads 256 bytes before the label. -/
theorem shortJump_misses :
    let waiting := labelRun (CodeBuffer.shortJump ⟨[], fun _ => {}⟩ .jump 0) jumpOver
    let result := applyLabel 0 waiting 0
    (∀ memLocation, .apply 0 memLocation ∉ jumpOver) ∧ (waiting.labels 0).offset = 130 ∧
      waiting.buffer.length = 130 ∧ ¬ LandsAt 0 result.buffer 1 130 ∧
      LandsAt 0 result.buffer 1 (130 - 256) := by
  intro waiting result
  have hbyte : result.buffer[1]? = some 0x80 := by decide +kernel
  refine ⟨fun memLocation hmem => ?_, by decide +kernel, by decide +kernel, ?_, ?_⟩
  · rcases List.mem_append.mp hmem with hpush | hset
    · cases List.eq_of_mem_replicate hpush
    · cases List.mem_singleton.mp hset
  · rintro ⟨byte, hb, hlands⟩
    obtain rfl := Option.some.inj (hbyte.symm.trans hb)
    revert hlands
    decide
  · exact ⟨0x80, hbyte, by decide⟩
