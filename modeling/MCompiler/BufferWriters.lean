/-
# Little-endian writers

`dbuffer_pushLong` and `dbuffer_pushInt` append the bytes of a number, `writeLong` and
`writeInt` put them over bytes that are there already, as those that `relocation_emit` has
pushed.  The blocks are taken to be large enough here.

* `littleEndian_agree` : all four write the same bytes, which stand for the number up to
  their width.
-/
import MCompiler.BufferContents
import MCompiler.RelocationCorrect

/-- `writeInt`, which has a loop of its own. -/
def writeInt (buffer : List UInt8) (offset num : ℕ) : ℕ → List UInt8
  | 0 => buffer
  | bytes + 1 =>
      writeInt (buffer.set offset (UInt8.ofNat (num &&& 0xFF))) (offset + 1) (num >>> 8) bytes

theorem writeInt_eq_writeLong (buffer : List UInt8) (offset num bytes : ℕ) :
    writeInt buffer offset num bytes = writeLong buffer offset num bytes := by
  induction bytes generalizing buffer offset num with
  | zero => rfl
  | succ bytes ih => rw [writeInt, writeLong, ih]

namespace LoggedBuffer

/-- From `b` to `b'` exactly `bytes` bytes are appended, which stand for `num` modulo
`2 ^ (8 * bytes)`. -/
def AppendsNumber (b b' : LoggedBuffer) (num bytes : ℕ) : Prop :=
  ∃ data, b'.d.contents = b.d.contents ++ data ∧ data.length = bytes ∧
    ofBytesLE data = num % 2 ^ (8 * bytes)

theorem contents_length (b : LoggedBuffer) : b.d.contents.length = b.d.usage := by
  rw [Dbuffer.contents, List.length_map, List.length_range]

theorem contents_pushLowBytes {b : LoggedBuffer} {bytes : ℕ} (hfits : b.d.usage + bytes < 2 ^ 64)
    (num : ℕ) : (b.pushLowBytes num bytes).d.contents = b.d.contents ++ bytesLE bytes num :=
  (pushLowBytes_appends bytes num b hfits).contents

theorem pushLowBytes_appendsNumber {b : LoggedBuffer} {bytes : ℕ}
    (hfits : b.d.usage + bytes < 2 ^ 64) (num : ℕ) :
    AppendsNumber b (b.pushLowBytes num bytes) num bytes := by
  refine ⟨bytesLE bytes num, contents_pushLowBytes hfits num, length_bytesLE bytes num, ?_⟩
  rw [ofBytesLE_bytesLE, Nat.pow_mul]

theorem contents_pushChars {b : LoggedBuffer} {bytes : ℕ} (hfits : b.d.usage + bytes < 2 ^ 64)
    (c : UInt8) :
    (b.pushChars c bytes).d.contents = b.d.contents ++ List.replicate bytes c := by
  rw [pushChars_eq]
  refine (pushData_appends b _ ?_).contents
  rwa [List.length_replicate]

/-- Bytes that have been pushed are written over. -/
theorem writeLong_pushChars {b : LoggedBuffer} {bytes : ℕ} (hfits : b.d.usage + bytes < 2 ^ 64)
    (c : UInt8) (num : ℕ) :
    writeLong (b.pushChars c bytes).d.contents b.d.usage num bytes =
      (b.pushLowBytes num bytes).d.contents := by
  have hlength : (List.replicate bytes c).length = (bytesLE bytes num).length := by
    rw [List.length_replicate, length_bytesLE]
  rw [contents_pushLowBytes hfits, contents_pushChars hfits, writeLong_eq_patch,
    ← b.contents_length]
  exact patch_append _ hlength

end LoggedBuffer

/-- Only the bytes of the field are written. -/
theorem getElem?_writeLong_of_outside (buffer : List UInt8) {offset bytes i : ℕ} (num : ℕ)
    (h : i < offset ∨ offset + bytes ≤ i) :
    (writeLong buffer offset num bytes)[i]? = buffer[i]? := by
  rw [writeLong_eq_patch]
  apply getElem?_patch_of_outside
  rwa [length_bytesLE]

/-- The four writers at the end of a buffer. -/
structure WritersAgree (b : LoggedBuffer) (bytes : ℕ) : Prop where
  pushLong : ∀ num : UInt64, b.AppendsNumber (b.pushLong num bytes) num.toNat bytes
  pushInt : ∀ num : UInt32, b.AppendsNumber (b.pushInt num bytes) num.toNat bytes
  /-- Placeholders that are written over afterwards. -/
  overLong : ∀ (num : UInt64) (c : UInt8),
    writeLong (b.pushChars c bytes).d.contents b.d.usage num.toNat bytes =
      (b.pushLong num bytes).d.contents
  overInt : ∀ (num : UInt64) (c : UInt8),
    writeInt (b.pushChars c bytes).d.contents b.d.usage num.toNat bytes =
      (b.pushLong num bytes).d.contents
  /-- Wherever a number is written, the bytes beside it stay. -/
  unchanged : ∀ (num : UInt64) (buffer : List UInt8) (offset i : ℕ),
    i < offset ∨ offset + bytes ≤ i →
      (writeLong buffer offset num.toNat bytes)[i]? = buffer[i]? ∧
        (writeInt buffer offset num.toNat bytes)[i]? = buffer[i]?

/-- **The little-endian writers agree and lose nothing.**  The number of bytes is any; with
more than 8 of them the assertion of `dbuffer_pushInt` fails. -/
theorem littleEndian_agree (b : LoggedBuffer) (bytes : ℕ) (hfits : b.d.usage + bytes < 2 ^ 64) :
    WritersAgree b bytes where
  pushLong num := LoggedBuffer.pushLowBytes_appendsNumber hfits num.toNat
  pushInt num := LoggedBuffer.pushLowBytes_appendsNumber hfits num.toNat
  overLong num c := LoggedBuffer.writeLong_pushChars hfits c num.toNat
  overInt num c := by
    rw [writeInt_eq_writeLong]
    exact LoggedBuffer.writeLong_pushChars hfits c num.toNat
  unchanged num buffer offset i hi := by
    rw [writeInt_eq_writeLong, and_self]
    exact getElem?_writeLong_of_outside buffer num.toNat hi

/-- All eight bytes of a number, on a new buffer. -/
theorem littleEndian_agree_new : WritersAgree ⟨dbufferInitSize 1000, []⟩ 8 :=
  littleEndian_agree ⟨dbufferInitSize 1000, []⟩ 8 (by decide)
