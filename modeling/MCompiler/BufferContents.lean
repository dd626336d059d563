/-
# The contents of a buffer

Every push appends bytes, `dbuffer_popPtr` drops eight, `dbuffer_removeRange` deletes a
range and `dbuffer_clear` drops everything.  The blocks are taken to be large enough
here; next to the buffer stands the list of the bytes it should hold, and every read of
bytes of the buffer is logged together with the usage.

* `buffer_run_follows_iff` : in a run every call leaves the bytes of the list and reads
  used bytes only, exactly if every range removed ends within the contents.
-/
import Mathlib.Data.List.Range
import MCompiler.Buffer
import MCompiler.Lib.LittleEndian

open Runs

/-! ## Reads -/

/-- A read or a move of `length` bytes from `offset` on, with `usage` bytes in use. -/
structure Access where
  offset : ℕ
  length : ℕ
  usage : ℕ
  deriving DecidableEq, Repr

/-- Only bytes in use are read. -/
def Access.InUse (a : Access) : Prop := a.offset + a.length ≤ a.usage

instance (a : Access) : Decidable a.InUse := inferInstanceAs (Decidable (_ ≤ _))

/-- A buffer with the reads of the call in progress. -/
structure LoggedBuffer where
  d : Dbuffer
  reads : List Access

/-! ## The operations -/

namespace Dbuffer

/-- The read of `dbuffer_ensureCap`, when it moves the used bytes into a new block. -/
def copies (d : Dbuffer) (size : ℕ) : List Access :=
  if size > sizeSub d.capacity d.usage then [⟨0, d.usage, d.usage⟩] else []

/-- `memmove` of `length` bytes inside the block. -/
def move (d : Dbuffer) (target source length : ℕ) : Dbuffer :=
  { d with
    bytes := fun i =>
      if target ≤ i ∧ i < target + length then d.bytes (i - target + source) else d.bytes i
    writes := d.writes ++ [⟨target, length, d.room⟩] }

/-- The exchange of two bytes. -/
def swap (d : Dbuffer) (i j : ℕ) : Dbuffer :=
  { d with
    bytes := fun k => if k = j then d.bytes i else if k = i then d.bytes j else d.bytes k
    writes := d.writes ++ [⟨i, 1, d.room⟩, ⟨j, 1, d.room⟩] }

end Dbuffer

namespace LoggedBuffer

/-- `dbuffer_ensureCap`. -/
def ensureCap (b : LoggedBuffer) (size : ℕ) : LoggedBuffer :=
  ⟨dbufferEnsureCap b.d size, b.reads ++ b.d.copies size⟩

/-- `dbuffer_pushData`. -/
def pushData (b : LoggedBuffer) (data : List UInt8) : LoggedBuffer :=
  ⟨dbufferPushData b.d data, b.reads ++ b.d.copies data.length⟩

/-- `dbuffer_pushStr`. -/
def pushStr (b : LoggedBuffer) (str : List UInt8) : LoggedBuffer := b.pushData str

/-- `dbuffer_pushChar`. -/
def pushChar (b : LoggedBuffer) (ch : UInt8) : LoggedBuffer := b.pushData [ch]

/-- The loop of `dbuffer_pushLong` and `dbuffer_pushInt`. -/
def pushLowBytes (b : LoggedBuffer) (num : ℕ) : ℕ → LoggedBuffer
  | 0 => b
  | bytes + 1 => (b.pushChar (UInt8.ofNat (num &&& 0xFF))).pushLowBytes (num >>> 8) bytes

/-- `dbuffer_pushLong`. -/
def pushLong (b : LoggedBuffer) (num : UInt64) (bytes : ℕ) : LoggedBuffer :=
  b.pushLowBytes num.toNat bytes

/-- `dbuffer_pushInt`. -/
def pushInt (b : LoggedBuffer) (num : UInt32) (bytes : ℕ) : LoggedBuffer :=
  b.pushLowBytes num.toNat bytes

/-- `dbuffer_push`: the arguments are `unsigned int`s, converted to bytes. -/
def push (b : LoggedBuffer) (args : List UInt32) : LoggedBuffer :=
  b.pushData (args.map UInt32.toUInt8)

/-- `dbuffer_pushChars`. -/
def pushChars (b : LoggedBuffer) (c : UInt8) (size : ℕ) : LoggedBuffer :=
  ⟨dbufferPushChars b.d c size, b.reads ++ b.d.copies size⟩

/-- `dbuffer_pushRange`. -/
def pushRange (b : LoggedBuffer) (range : List UInt8) : LoggedBuffer := b.pushData range

/-- `dbuffer_pushPtr`. -/
def pushPtr (b : LoggedBuffer) (pointer : UInt64) : LoggedBuffer :=
  (b.ensureCap 8).pushData (ptrBytes pointer)

/-- `dbuffer_popPtr`. -/
def popPtr (b : LoggedBuffer) : LoggedBuffer := { b with d := dbufferPopPtr b.d }

/-- The first loop of `dbuffer_pushUIntStr`: the digits, the last one first, and their
number.  The character `0` is 48. -/
def pushDigits (b : LoggedBuffer) (number size : ℕ) : LoggedBuffer × ℕ :=
  let b := b.pushChar (UInt8.ofNat (48 + number % 10))
  if number / 10 = 0 then (b, size + 1) else pushDigits b (number / 10) (size + 1)
termination_by number
decreasing_by exact Nat.div_lt_self (Nat.pos_of_ne_zero (by rintro rfl; contradiction)) (by decide)

/-- Its second loop: the digits are put into the right order. -/
def swapLoop (b : LoggedBuffer) (start size : ℕ) (count : ℕ) : LoggedBuffer :=
  (List.range count).foldl (fun b i =>
    ⟨b.d.swap (start + i) (start + size - i - 1),
      b.reads ++ [⟨start + i, 1, b.d.usage⟩, ⟨start + size - i - 1, 1, b.d.usage⟩]⟩) b

/-- `dbuffer_pushUIntStr`. -/
def pushUIntStr (b : LoggedBuffer) (number : UInt32) : LoggedBuffer :=
  let (b, size) := b.pushDigits number.toNat 0
  b.swapLoop (sizeSub b.d.usage size) size (size / 2)

/-- `dbuffer_pushUIntHexStr`: it computes a hexadecimal digit, too, but pushes the decimal
one. -/
def pushUIntHexStr (b : LoggedBuffer) (number : UInt32) : LoggedBuffer :=
  let (b, size) := b.pushDigits number.toNat 0
  b.swapLoop (sizeSub b.d.usage size) size (size / 2)

/-- `dbuffer_pushIntStr`.  The character `-` is 45. -/
def pushIntStr (b : LoggedBuffer) (number : Int32) : LoggedBuffer :=
  if number < 0 then (b.pushChar 45).pushUIntStr (-number).toUInt32
  else b.pushUIntStr number.toUInt32

/-- `dbuffer_removeRange`; its assertions are part of `BufferCall.Allowed`. -/
def removeRange (b : LoggedBuffer) (offset size : ℕ) : LoggedBuffer :=
  let offsetEnd := sizeAdd offset size
  let length := sizeSub b.d.usage offsetEnd
  ⟨{ b.d.move offset offsetEnd length with usage := sizeSub b.d.usage size },
    b.reads ++ [⟨offsetEnd, length, b.d.usage⟩]⟩

/-- `dbuffer_clear`. -/
def clear (b : LoggedBuffer) : LoggedBuffer := { b with d := dbufferClear b.d }

end LoggedBuffer

/-! ## Calls -/

/-- A call on a buffer. -/
inductive BufferCall where
  | pushData (data : List UInt8)
  | pushStr (str : List UInt8)
  | pushChar (ch : UInt8)
  | pushLong (num : UInt64) (bytes : ℕ)
  | pushInt (num : UInt32) (bytes : ℕ)
  | push (args : List UInt32)
  | pushChars (c : UInt8) (size : ℕ)
  | pushRange (range : List UInt8)
  | pushPtr (pointer : UInt64)
  | pushUIntStr (number : UInt32)
  | pushUIntHexStr (number : UInt32)
  | pushIntStr (number : Int32)
  | popPtr
  | removeRange (offset size : ℕ)
  | clear

/-- The buffer after a call; the log restarts with every call. -/
def bufferStep (b : LoggedBuffer) (call : BufferCall) : LoggedBuffer :=
  let b := { b with reads := [] }
  match call with
  | .pushData data => b.pushData data
  | .pushStr str => b.pushStr str
  | .pushChar ch => b.pushChar ch
  | .pushLong num bytes => b.pushLong num bytes
  | .pushInt num bytes => b.pushInt num bytes
  | .push args => b.push args
  | .pushChars c size => b.pushChars c size
  | .pushRange range => b.pushRange range
  | .pushPtr pointer => b.pushPtr pointer
  | .pushUIntStr number => b.pushUIntStr number
  | .pushUIntHexStr number => b.pushUIntHexStr number
  | .pushIntStr number => b.pushIntStr number
  | .popPtr => b.popPtr
  | .removeRange offset size => b.removeRange offset size
  | .clear => b.clear

/-! ## What the calls should do -/

/-- The decimal digits of a number. -/
def decimalBytes (number : ℕ) : List UInt8 :=
  if number < 10 then [UInt8.ofNat (48 + number)]
  else decimalBytes (number / 10) ++ [UInt8.ofNat (48 + number % 10)]
termination_by number
decreasing_by exact Nat.div_lt_self (by omega) (by decide)

/-- The bytes that a call appends, for a push.  Those of `pushUIntHexStr` are the decimal digits
that the code pushes; the hexadecimal ones, which it computes, are not used. -/
def BufferCall.pushed : BufferCall → Option (List UInt8)
  | .pushData data => some data
  | .pushStr str => some str
  | .pushChar ch => some [ch]
  | .pushLong num bytes => some (bytesLE bytes num.toNat)
  | .pushInt num bytes => some (bytesLE bytes num.toNat)
  | .push args => some (args.map UInt32.toUInt8)
  | .pushChars c size => some (List.replicate size c)
  | .pushRange range => some range
  | .pushPtr pointer => some (bytesLE 8 pointer.toNat)
  | .pushUIntStr number => some (decimalBytes number.toNat)
  | .pushUIntHexStr number => some (decimalBytes number.toNat)
  | .pushIntStr number =>
      some (if number < 0 then 45 :: decimalBytes number.toInt.natAbs
        else decimalBytes number.toInt.natAbs)
  | .popPtr => none
  | .removeRange _ _ => none
  | .clear => none

/-- The bytes that a buffer should hold after a call. -/
def contentsStep (contents : List UInt8) : BufferCall → List UInt8
  | .popPtr => contents.take (contents.length - 8)
  | .removeRange offset size => contents.take offset ++ contents.drop (offset + size)
  | .clear => []
  | call => contents ++ call.pushed.getD []

/-- What a caller may do: the sizes are `size_t`, the assertions hold, and only a buffer
with eight bytes in use is popped. -/
def BufferCall.Allowed (d : Dbuffer) : BufferCall → Prop
  | .popPtr => 8 ≤ d.usage
  | .removeRange offset size => size ≤ d.usage ∧ offset < d.usage
  | .clear => True
  | .pushInt num bytes => bytes ≤ 8 ∧ d.usage + (bytesLE bytes num.toNat).length < 2 ^ 64
  | call => d.usage + (call.pushed.getD []).length < 2 ^ 64

/-- A range that is removed ends within the contents. -/
def BufferCall.EndsWithin (d : Dbuffer) : BufferCall → Prop
  | .removeRange offset size => offset + size ≤ d.usage
  | _ => True

instance decidableBufferAllowed (d : Dbuffer) (call : BufferCall) : Decidable (call.Allowed d) := by
  cases call <;> unfold BufferCall.Allowed <;> infer_instance

instance decidableEndsWithin (d : Dbuffer) (call : BufferCall) : Decidable (call.EndsWithin d) := by
  cases call <;> unfold BufferCall.EndsWithin <;> infer_instance

/-- A buffer with the bytes that it should hold. -/
structure BufferSession where
  buffer : LoggedBuffer
  contents : List UInt8

/-- A call on both. -/
def bufferSessionStep (s : BufferSession) (call : BufferCall) : BufferSession :=
  ⟨bufferStep s.buffer call, contentsStep s.contents call⟩

/-- The start: an empty buffer. -/
def bufferStart (size : ℕ) : BufferSession := ⟨⟨dbufferInitSize size, []⟩, []⟩

/-- **A call follows the contents**: the used bytes are those of the list afterwards, and
no byte at or beyond the usage is read or moved. -/
structure BufferCall.Follows (s : BufferSession) (call : BufferCall) : Prop where
  contents : (bufferSessionStep s call).buffer.d.contents = (bufferSessionStep s call).contents
  reads : ∀ a ∈ (bufferSessionStep s call).buffer.reads, a.InUse

/-! ## Pushing -/

namespace LoggedBuffer

/-- From `b` to `b'` the bytes `data` are appended, and only used bytes are read. -/
structure Appends (b b' : LoggedBuffer) (data : List UInt8) : Prop where
  contents : b'.d.contents = b.d.contents ++ data
  usage : b'.d.usage = b.d.usage + data.length
  reads : ∀ a ∈ b'.reads, a ∈ b.reads ∨ a.InUse

theorem Appends.refl (b : LoggedBuffer) : Appends b b [] :=
  ⟨(List.append_nil _).symm, rfl, fun _ ha => .inl ha⟩

theorem Appends.trans {b₁ b₂ b₃ : LoggedBuffer} {data data' : List UInt8}
    (h : Appends b₁ b₂ data) (h' : Appends b₂ b₃ data') : Appends b₁ b₃ (data ++ data') where
  contents := by rw [h'.contents, h.contents, List.append_assoc]
  usage := by rw [h'.usage, h.usage, List.length_append, Nat.add_assoc]
  reads := by
    intro a ha
    rcases h'.reads a ha with ha | ha
    · exact h.reads a ha
    · exact .inr ha

theorem copies_inUse (d : Dbuffer) (size : ℕ) : ∀ a ∈ d.copies size, a.InUse := by
  intro a ha
  unfold Dbuffer.copies at ha
  split at ha
  · rw [List.mem_singleton.mp ha]
    exact (Nat.zero_add _).le
  · exact absurd ha List.not_mem_nil

theorem ensureCap_of_full (d : Dbuffer) (size : ℕ) (h : size > sizeSub d.capacity d.usage) :
    dbufferEnsureCap d size = { d with
      room := growthTarget d.capacity size
      bytes := fun i => if i < d.usage then d.bytes i else 0
      writes := d.writes ++ [⟨0, d.usage, growthTarget d.capacity size⟩] } := by
  rw [dbufferEnsureCap, if_pos h]

theorem ensureCap_of_room (d : Dbuffer) (size : ℕ) (h : ¬ size > sizeSub d.capacity d.usage) :
    dbufferEnsureCap d size = d := by
  rw [dbufferEnsureCap, if_neg h]

/-- A new block holds the used bytes of the old one. -/
theorem ensureCap_bytes (d : Dbuffer) (size i : ℕ) (hi : i < d.usage) :
    (dbufferEnsureCap d size).bytes i = d.bytes i := by
  by_cases h : size > sizeSub d.capacity d.usage
  · rw [ensureCap_of_full d size h]
    exact if_pos hi
  · rw [ensureCap_of_room d size h]

theorem contents_ensureCap (d : Dbuffer) (size : ℕ) :
    (dbufferEnsureCap d size).contents = d.contents := by
  unfold Dbuffer.contents
  rw [dbufferEnsureCap_usage]
  apply List.map_congr_left
  intro i hi
  exact ensureCap_bytes d size i (List.mem_range.mp hi)

/-- Storing bytes behind the used ones. -/
theorem contents_store (d : Dbuffer) (data : List UInt8)
    (hfits : d.usage + data.length < 2 ^ 64) :
    ({ d.store d.usage data with
        usage := sizeAdd (d.store d.usage data).usage data.length } : Dbuffer).contents =
      d.contents ++ data := by
  rw [show (d.store d.usage data).usage = d.usage from rfl, sizeAdd_of_lt hfits]
  unfold Dbuffer.contents Dbuffer.store
  dsimp only
  rw [List.range_add, List.map_append]
  congr 1
  · apply List.map_congr_left
    intro i hi
    have hi := List.mem_range.mp hi
    exact if_neg fun h => absurd h.1 (Nat.not_le.mpr hi)
  · apply List.ext_getElem
    · simp
    · intro i h₁ h₂
      simp [h₂]

theorem contents_pushData (d : Dbuffer) (data : List UInt8)
    (hfits : d.usage + data.length < 2 ^ 64) :
    (dbufferPushData d data).contents = d.contents ++ data := by
  rw [← contents_ensureCap d data.length]
  apply contents_store
  rw [dbufferEnsureCap_usage]
  exact hfits

theorem ensureCap_appends (b : LoggedBuffer) (size : ℕ) : Appends b (b.ensureCap size) [] := by
  refine ⟨?_, ?_, ?_⟩
  · rw [List.append_nil]
    exact contents_ensureCap b.d size
  · exact dbufferEnsureCap_usage b.d size
  · intro a ha
    rcases List.mem_append.mp ha with ha | ha
    · exact .inl ha
    · exact .inr (copies_inUse b.d size a ha)

/-- **A push** appends its bytes. -/
theorem pushData_appends (b : LoggedBuffer) (data : List UInt8)
    (hfits : b.d.usage + data.length < 2 ^ 64) : Appends b (b.pushData data) data := by
  refine ⟨contents_pushData b.d data hfits, ?_, ?_⟩
  · exact (dbufferPushData_usage b.d data).trans (sizeAdd_of_lt hfits)
  · intro a ha
    rcases List.mem_append.mp ha with ha | ha
    · exact .inl ha
    · exact .inr (copies_inUse b.d data.length a ha)

theorem pushLowBytes_appends (bytes num : ℕ) (b : LoggedBuffer)
    (hfits : b.d.usage + bytes < 2 ^ 64) :
    Appends b (b.pushLowBytes num bytes) (bytesLE bytes num) := by
  induction bytes generalizing b num with
  | zero => exact Appends.refl b
  | succ bytes ih =>
      have hchar := pushData_appends b [UInt8.ofNat (num &&& 0xFF)] (by simp; omega)
      have hrest := ih (num >>> 8) (b.pushChar (UInt8.ofNat (num &&& 0xFF)))
        (by rw [pushChar, hchar.usage]; simp; omega)
      have happ := hchar.trans hrest
      rw [ofNat_and_255, Nat.shiftRight_eq_div_pow] at happ
      rw [pushLowBytes, bytesLE, ofNat_and_255, Nat.shiftRight_eq_div_pow]
      exact happ

theorem pushChars_eq (b : LoggedBuffer) (c : UInt8) (size : ℕ) :
    b.pushChars c size = b.pushData (List.replicate size c) := by
  rw [pushChars, pushData, dbufferPushChars_eq, List.length_replicate]

/-- The bytes of a pointer are its low bytes. -/
theorem ptrBytes_eq (pointer : UInt64) : ptrBytes pointer = bytesLE 8 pointer.toNat := by
  simp [ptrBytes, bytesLE, List.range_succ, Nat.shiftRight_eq_div_pow, Nat.div_div_eq_div_mul]

theorem pushPtr_appends (b : LoggedBuffer) (pointer : UInt64)
    (hfits : b.d.usage + 8 < 2 ^ 64) :
    Appends b (b.pushPtr pointer) (bytesLE 8 pointer.toNat) := by
  rw [← ptrBytes_eq]
  have hcap := ensureCap_appends b 8
  have hlength : (ptrBytes pointer).length = 8 := rfl
  have hdata := pushData_appends (b.ensureCap 8) (ptrBytes pointer)
    (by rw [hcap.usage, hlength, List.length_nil, Nat.add_zero]; exact hfits)
  exact hcap.trans hdata

/-! ## Numbers -/

/-- **The digits** are pushed in the reverse order. -/
theorem pushDigits_appends (number : ℕ) (b : LoggedBuffer) (size : ℕ)
    (hfits : b.d.usage + (decimalBytes number).length < 2 ^ 64) :
    Appends b (b.pushDigits number size).1 (decimalBytes number).reverse ∧
      (b.pushDigits number size).2 = size + (decimalBytes number).length := by
  induction number using Nat.strong_induction_on generalizing b size with
  | h number ih =>
      have hpos : 0 < (decimalBytes number).length := by
        unfold decimalBytes
        split <;> simp
      have hchar := pushData_appends b [UInt8.ofNat (48 + number % 10)]
        (by rw [List.length_singleton]; omega)
      unfold pushDigits
      dsimp only
      by_cases hlast : number / 10 = 0
      · have hsmall : number < 10 := by omega
        rw [if_pos hlast]
        unfold decimalBytes
        rw [if_pos hsmall]
        rw [Nat.mod_eq_of_lt hsmall] at hchar ⊢
        exact ⟨hchar, rfl⟩
      · have hlarge : ¬ number < 10 := by omega
        have hdigits : decimalBytes number =
            decimalBytes (number / 10) ++ [UInt8.ofNat (48 + number % 10)] := by
          rw [decimalBytes, if_neg hlarge]
        rw [hdigits, List.length_append, List.length_singleton] at hfits
        obtain ⟨hrest, hcount⟩ := ih (number / 10) (by omega)
          (b.pushChar (UInt8.ofNat (48 + number % 10))) (size + 1)
          (by rw [pushChar, hchar.usage, List.length_singleton]; omega)
        rw [if_neg hlast, hdigits, List.reverse_append, List.length_append, List.length_singleton]
        refine ⟨hchar.trans hrest, ?_⟩
        rw [hcount]
        omega

/-- The exchanges so far. -/
theorem swapLoop_spec (b : LoggedBuffer) (start size count : ℕ) (hcount : 2 * count ≤ size)
    (hsize : start + size ≤ b.d.usage) :
    (b.swapLoop start size count).d.usage = b.d.usage ∧
    (∀ a ∈ (b.swapLoop start size count).reads, a ∈ b.reads ∨ a.InUse) ∧
    ∀ k, (b.swapLoop start size count).d.bytes k =
      if start ≤ k ∧ k < start + size ∧ (k < start + count ∨ start + size - count ≤ k) then
        b.d.bytes (start + size - 1 - (k - start))
      else b.d.bytes k := by
  induction count with
  | zero =>
      refine ⟨rfl, fun a ha => .inl ha, fun k => ?_⟩
      rw [if_neg (by omega)]
      rfl
  | succ count ih =>
      obtain ⟨husage, hreads, hbytes⟩ := ih (by omega)
      have hstep : b.swapLoop start size (count + 1) =
          ⟨(b.swapLoop start size count).d.swap (start + count) (start + size - count - 1),
            (b.swapLoop start size count).reads ++
              [⟨start + count, 1, (b.swapLoop start size count).d.usage⟩,
                ⟨start + size - count - 1, 1, (b.swapLoop start size count).d.usage⟩]⟩ := by
        unfold swapLoop
        rw [List.range_succ, List.foldl_append]
        rfl
      rw [hstep]
      refine ⟨husage, ?_, ?_⟩
      · intro a ha
        rcases List.mem_append.mp ha with ha | ha
        · exact hreads a ha
        · right
          rw [husage] at ha
          rcases List.mem_cons.mp ha with rfl | ha
          · show start + count + 1 ≤ b.d.usage
            omega
          · rw [List.mem_singleton.mp ha]
            show start + size - count - 1 + 1 ≤ b.d.usage
            omega
      · intro k
        unfold Dbuffer.swap
        dsimp only
        rw [hbytes, hbytes, hbytes]
        by_cases hlow : k = start + count
        · subst hlow
          rw [if_neg (by omega), if_pos rfl, if_neg (by omega), if_pos (by omega)]
          congr 1
          omega
        · by_cases hhigh : k = start + size - count - 1
          · subst hhigh
            rw [if_pos rfl, if_neg (by omega), if_pos (by omega)]
            congr 1
            omega
          · rw [if_neg hhigh, if_neg hlow]
            by_cases hdone : start ≤ k ∧ k < start + size ∧
                (k < start + count ∨ start + size - count ≤ k)
            · rw [if_pos hdone, if_pos (by omega)]
            · rw [if_neg hdone, if_neg (by omega)]

/-- **The exchanges** reverse the last bytes. -/
theorem swapLoop_contents (b : LoggedBuffer) (old data : List UInt8)
    (hcontents : b.d.contents = old ++ data) :
    (b.swapLoop old.length data.length (data.length / 2)).d.contents = old ++ data.reverse := by
  have hlength : b.d.usage = old.length + data.length := by
    have h := congrArg List.length hcontents
    simpa [Dbuffer.contents] using h
  obtain ⟨husage, -, hbytes⟩ := swapLoop_spec b old.length data.length (data.length / 2)
    (by omega) hlength.ge
  have hget : ∀ i (hi : i < (old ++ data).length), b.d.bytes i = (old ++ data)[i] := by
    intro i hi
    simp [← hcontents, Dbuffer.contents]
  apply List.ext_getElem
  · simp [Dbuffer.contents, husage, hlength]
  · intro i h₁ h₂
    have hi : i < (old ++ data).length := by simpa using h₂
    have hlt : i < old.length + data.length := by simpa using hi
    have hi' : (b.swapLoop old.length data.length (data.length / 2)).d.contents[i] =
        (b.swapLoop old.length data.length (data.length / 2)).d.bytes i := by
      simp [Dbuffer.contents]
    rw [hi', hbytes]
    by_cases hold : i < old.length
    · rw [if_neg (by omega), hget i hi, List.getElem_append_left hold,
        List.getElem_append_left hold]
    · rw [List.getElem_append_right (Nat.not_lt.mp hold), List.getElem_reverse]
      by_cases hmid : i < old.length + data.length / 2 ∨
          old.length + data.length - data.length / 2 ≤ i
      · rw [if_pos (by omega), hget _ (by simp; omega),
          List.getElem_append_right (by omega)]
        congr 1
        omega
      · -- the byte in the middle stays
        rw [if_neg (by omega), hget i hi, List.getElem_append_right (Nat.not_lt.mp hold)]
        congr 1
        omega

/-- **A number** is pushed as its decimal digits. -/
theorem pushUIntStr_appends (b : LoggedBuffer) (number : UInt32)
    (hfits : b.d.usage + (decimalBytes number.toNat).length < 2 ^ 64) :
    Appends b (b.pushUIntStr number) (decimalBytes number.toNat) := by
  obtain ⟨hdigits, hsize⟩ := pushDigits_appends number.toNat b 0 hfits
  unfold pushUIntStr
  generalize b.pushDigits number.toNat 0 = result at hdigits hsize
  obtain ⟨b', size⟩ := result
  generalize decimalBytes number.toNat = data at hdigits hsize hfits
  dsimp only at hdigits hsize ⊢
  rw [Nat.zero_add] at hsize
  subst hsize
  have husage : b'.d.usage = b.d.usage + data.length := by
    rw [hdigits.usage, List.length_reverse]
  have hold : b.d.contents.length = b.d.usage := by simp [Dbuffer.contents]
  have hstart : sizeSub b'.d.usage data.length = b.d.usage := by
    rw [sizeSub_of_le (by omega) (by omega)]
    omega
  obtain ⟨hsame, hreads, -⟩ := swapLoop_spec b' b.d.usage data.length (data.length / 2)
    (by omega) (by omega)
  rw [hstart]
  refine ⟨?_, hsame.trans husage, ?_⟩
  · have hswapped := swapLoop_contents b' b.d.contents data.reverse hdigits.contents
    rw [List.length_reverse, List.reverse_reverse, hold] at hswapped
    exact hswapped
  · intro a ha
    rcases hreads a ha with ha | ha
    · exact hdigits.reads a ha
    · exact .inr ha

/-- The absolute value of an `int`, as an `unsigned int`. -/
theorem toNat_of_nonneg (number : Int32) (h : ¬ number < 0) :
    number.toUInt32.toNat = number.toInt.natAbs := by
  have hsign : ¬ number.toInt < 0 := by simpa [Int32.lt_iff_toInt_lt] using h
  have hint : number.toInt = if 2 * number.toBitVec.toNat < 2 ^ 32 then
      (number.toBitVec.toNat : ℤ) else (number.toBitVec.toNat : ℤ) - (2 ^ 32 : ℕ) :=
    BitVec.toInt_eq_toNat_cond _
  have hlt := number.toBitVec.isLt
  show number.toBitVec.toNat = _
  split at hint <;> omega

theorem toNat_neg_of_neg (number : Int32) (h : number < 0) :
    (-number).toUInt32.toNat = number.toInt.natAbs := by
  have hsign : number.toInt < 0 := by simpa [Int32.lt_iff_toInt_lt] using h
  have hint : number.toInt = if 2 * number.toBitVec.toNat < 2 ^ 32 then
      (number.toBitVec.toNat : ℤ) else (number.toBitVec.toNat : ℤ) - (2 ^ 32 : ℕ) :=
    BitVec.toInt_eq_toNat_cond _
  have hlt := number.toBitVec.isLt
  show (-number.toBitVec).toNat = _
  rw [BitVec.toNat_neg]
  split at hint <;> omega

theorem pushIntStr_appends (b : LoggedBuffer) (number : Int32) (data : List UInt8)
    (hdata : (BufferCall.pushIntStr number).pushed = some data)
    (hfits : b.d.usage + data.length < 2 ^ 64) : Appends b (b.pushIntStr number) data := by
  unfold BufferCall.pushed at hdata
  cases hdata
  unfold pushIntStr
  by_cases hneg : number < 0
  · rw [if_pos hneg] at hfits ⊢
    rw [if_pos hneg, ← toNat_neg_of_neg number hneg]
    rw [← toNat_neg_of_neg number hneg, List.length_cons] at hfits
    have hsign := pushData_appends b [45] (by rw [List.length_singleton]; omega)
    have hdigits := pushUIntStr_appends (b.pushChar 45) (-number).toUInt32
      (by rw [pushChar, hsign.usage, List.length_singleton]; omega)
    exact hsign.trans hdigits
  · rw [if_neg hneg] at hfits ⊢
    rw [if_neg hneg, ← toNat_of_nonneg number hneg]
    rw [← toNat_of_nonneg number hneg] at hfits
    exact pushUIntStr_appends b number.toUInt32 hfits

/-! ## Removing -/

/-- **A range that ends within the contents** is deleted, and the bytes behind it are
moved to its place. -/
theorem removeRange_contents (b : LoggedBuffer) (offset size : ℕ) (husage : b.d.usage < 2 ^ 64)
    (hend : offset + size ≤ b.d.usage) :
    (b.removeRange offset size).d.contents =
        b.d.contents.take offset ++ b.d.contents.drop (offset + size) ∧
      ∀ a ∈ (b.removeRange offset size).reads, a ∈ b.reads ∨ a.InUse := by
  have hadd : sizeAdd offset size = offset + size := sizeAdd_of_lt (by omega)
  have hlength : sizeSub b.d.usage (offset + size) = b.d.usage - (offset + size) :=
    sizeSub_of_le husage hend
  have hrest : sizeSub b.d.usage size = b.d.usage - size := sizeSub_of_le husage (by omega)
  unfold removeRange
  dsimp only
  rw [hadd, hlength, hrest]
  constructor
  · unfold Dbuffer.contents Dbuffer.move
    dsimp only
    apply List.ext_getElem
    · simp
      omega
    · intro i h₁ h₂
      have hi : i < b.d.usage - size := by simpa using h₁
      rw [List.getElem_map, List.getElem_range]
      by_cases hlow : i < offset
      · rw [if_neg (by omega), List.getElem_append_left (by simp; omega)]
        simp
      · rw [if_pos (by omega), List.getElem_append_right (by simp; omega)]
        simp
        congr 1
        omega
  · intro a ha
    rcases List.mem_append.mp ha with ha | ha
    · exact .inl ha
    · right
      rw [List.mem_singleton.mp ha]
      show offset + size + (b.d.usage - (offset + size)) ≤ b.d.usage
      omega

end LoggedBuffer

/-! ## One call -/

theorem length_contents (d : Dbuffer) : d.contents.length = d.usage := by
  simp [Dbuffer.contents]

/-- Fewer used bytes. -/
theorem contents_take (d : Dbuffer) {usage : ℕ} (h : usage ≤ d.usage) :
    ({ d with usage := usage } : Dbuffer).contents = d.contents.take usage := by
  unfold Dbuffer.contents
  dsimp only
  rw [← List.map_take, List.take_range, Nat.min_eq_left h]

/-- A push that fits follows the contents. -/
theorem bufferStep_appends (b : LoggedBuffer) (call : BufferCall) {data : List UInt8}
    (hdata : call.pushed = some data) (hfits : b.d.usage + data.length < 2 ^ 64) :
    LoggedBuffer.Appends { b with reads := [] } (bufferStep b call) data := by
  have hlow : ∀ num bytes, b.d.usage + (bytesLE bytes num).length < 2 ^ 64 →
      LoggedBuffer.Appends { b with reads := [] }
        (LoggedBuffer.pushLowBytes { b with reads := [] } num bytes) (bytesLE bytes num) := by
    intro num bytes h
    rw [length_bytesLE] at h
    exact LoggedBuffer.pushLowBytes_appends bytes num { b with reads := [] } h
  cases call with
  | popPtr => cases hdata
  | removeRange offset size => cases hdata
  | clear => cases hdata
  | pushIntStr number =>
      exact LoggedBuffer.pushIntStr_appends { b with reads := [] } number _ hdata hfits
  | pushLong num bytes =>
      cases hdata
      exact hlow num.toNat bytes hfits
  | pushInt num bytes =>
      cases hdata
      exact hlow num.toNat bytes hfits
  | pushPtr pointer =>
      cases hdata
      rw [length_bytesLE] at hfits
      exact LoggedBuffer.pushPtr_appends { b with reads := [] } pointer hfits
  | pushUIntStr number =>
      cases hdata
      exact LoggedBuffer.pushUIntStr_appends { b with reads := [] } number hfits
  | pushUIntHexStr number =>
      cases hdata
      exact LoggedBuffer.pushUIntStr_appends { b with reads := [] } number hfits
  | pushChars c size =>
      cases hdata
      show LoggedBuffer.Appends _ (LoggedBuffer.pushChars { b with reads := [] } c size) _
      rw [LoggedBuffer.pushChars_eq]
      exact LoggedBuffer.pushData_appends { b with reads := [] } _ hfits
  | pushData data =>
      cases hdata
      exact LoggedBuffer.pushData_appends { b with reads := [] } _ hfits
  | pushStr str =>
      cases hdata
      exact LoggedBuffer.pushData_appends { b with reads := [] } _ hfits
  | pushChar ch =>
      cases hdata
      exact LoggedBuffer.pushData_appends { b with reads := [] } _ hfits
  | push args =>
      cases hdata
      exact LoggedBuffer.pushData_appends { b with reads := [] } _ hfits
  | pushRange range =>
      cases hdata
      exact LoggedBuffer.pushData_appends { b with reads := [] } _ hfits

/-- What holds of a session as long as its calls follow the contents. -/
structure BufferSession.Synced (s : BufferSession) : Prop where
  contents : s.buffer.d.contents = s.contents
  usage_lt : s.buffer.d.usage < 2 ^ 64

/-- For a push the list grows by the same bytes. -/
theorem contentsStep_push (contents : List UInt8) {call : BufferCall} {data : List UInt8}
    (hdata : call.pushed = some data) : contentsStep contents call = contents ++ data := by
  cases call <;> cases hdata <;> rfl

theorem fits_of_allowed {d : Dbuffer} {call : BufferCall} {data : List UInt8}
    (hdata : call.pushed = some data) (hallowed : call.Allowed d) :
    d.usage + data.length < 2 ^ 64 := by
  cases call <;> cases hdata
  case pushInt => exact hallowed.2
  all_goals exact hallowed

/-- **One call** follows the contents exactly if a range that it removes ends within
them. -/
theorem BufferSession.Synced.follows_iff {s : BufferSession} (h : s.Synced) (call : BufferCall)
    (hallowed : call.Allowed s.buffer.d) :
    (call.Follows s ↔ call.EndsWithin s.buffer.d) ∧
      (call.Follows s → (bufferSessionStep s call).Synced) := by
  have hnil : ∀ a ∈ (LoggedBuffer.mk s.buffer.d []).reads, a.InUse := by simp
  have hlength : s.contents.length = s.buffer.d.usage := by
    rw [← h.contents, length_contents]
  cases hpushed : call.pushed with
  | some data =>
      -- a push
      have hfits := fits_of_allowed hpushed hallowed
      have happ := bufferStep_appends s.buffer call hpushed hfits
      have hcontents : (bufferSessionStep s call).buffer.d.contents =
          (bufferSessionStep s call).contents := by
        show (bufferStep s.buffer call).d.contents = contentsStep s.contents call
        rw [happ.contents, contentsStep_push _ hpushed, ← h.contents]
      have hwithin : call.EndsWithin s.buffer.d := by
        cases call <;> trivial
      refine ⟨iff_of_true ⟨hcontents, fun a ha => ?_⟩ hwithin, fun _ => ⟨hcontents, ?_⟩⟩
      · rcases happ.reads a ha with ha | ha
        · exact hnil a ha
        · exact ha
      · exact happ.usage ▸ hfits
  | none =>
      cases call with
      | popPtr =>
          have hpop : 8 ≤ s.buffer.d.usage := hallowed
          have husage : (bufferStep s.buffer .popPtr).d.usage = s.buffer.d.usage - 8 :=
            sizeSub_of_le h.usage_lt hpop
          have hcontents : (bufferStep s.buffer .popPtr).d.contents =
              s.contents.take (s.contents.length - 8) := by
            have hd : (bufferStep s.buffer .popPtr).d =
                { s.buffer.d with usage := sizeSub s.buffer.d.usage 8 } := rfl
            rw [hd, sizeSub_of_le h.usage_lt hpop, contents_take s.buffer.d (Nat.sub_le _ 8),
              hlength, h.contents]
          have hlt := h.usage_lt
          refine ⟨iff_of_true ⟨hcontents, hnil⟩ trivial, fun _ => ⟨hcontents, ?_⟩⟩
          show (bufferStep s.buffer .popPtr).d.usage < 2 ^ 64
          rw [husage]
          omega
      | clear =>
          refine ⟨iff_of_true ⟨rfl, hnil⟩ trivial, fun _ => ⟨rfl, ?_⟩⟩
          show 0 < 2 ^ 64
          decide
      | removeRange offset size =>
          obtain ⟨hsize, hoffset⟩ := hallowed
          have hlt := h.usage_lt
          have husage : (bufferStep s.buffer (.removeRange offset size)).d.usage =
              s.buffer.d.usage - size := sizeSub_of_le h.usage_lt hsize
          refine ⟨⟨fun hfollows => ?_, fun hend => ?_⟩, fun hfollows => ⟨hfollows.contents, ?_⟩⟩
          · -- the lengths agree
            have hlengths := congrArg List.length hfollows.contents
            rw [length_contents] at hlengths
            have hlist : (bufferSessionStep s (.removeRange offset size)).contents =
                s.contents.take offset ++ s.contents.drop (offset + size) := rfl
            have hbuffer : (bufferSessionStep s (.removeRange offset size)).buffer.d.usage =
                s.buffer.d.usage - size := husage
            rw [hlist, hbuffer, List.length_append, List.length_take, List.length_drop,
              hlength] at hlengths
            show offset + size ≤ s.buffer.d.usage
            omega
          · obtain ⟨hcontents, hreads⟩ := LoggedBuffer.removeRange_contents
              { s.buffer with reads := [] } offset size h.usage_lt hend
            constructor
            · show (LoggedBuffer.removeRange { s.buffer with reads := [] } offset size).d.contents =
                s.contents.take offset ++ s.contents.drop (offset + size)
              rw [hcontents, ← h.contents]
            · intro a ha
              rcases hreads a ha with ha | ha
              · exact hnil a ha
              · exact ha
          · show (bufferStep s.buffer (.removeRange offset size)).d.usage < 2 ^ 64
            rw [husage]
            omega
      | _ => cases hpushed

/-! ## Runs of calls -/

/-- **The contents follow the operations exactly if every range that is removed ends
within the contents.** -/
theorem buffer_run_follows_iff (size : ℕ) (calls : List BufferCall)
    (hall : EveryStep bufferSessionStep (fun s call => call.Allowed s.buffer.d)
      (bufferStart size) calls) :
    EveryStep bufferSessionStep (fun s call => call.Follows s) (bufferStart size) calls ↔
      EveryStep bufferSessionStep (fun s call => call.EndsWithin s.buffer.d)
        (bufferStart size) calls :=
  everyStep_iff_of_inv (I := BufferSession.Synced) (fun _ call h ha => (h.follows_iff call ha).1)
    (fun _ call h ha hf => (h.follows_iff call ha).2 hf) _ _
    ⟨rfl, by show 0 < 2 ^ 64; decide⟩ hall

/-- A run that grows the buffer, removes a range at its end and pops a pointer. -/
theorem buffer_run_follows_removed :
    EveryStep bufferSessionStep (fun s call => call.Follows s) (bufferStart 4)
      [.pushInt 258 4, .pushPtr 7, .popPtr, .pushChars 1 3, .removeRange 4 3, .clear] :=
  (buffer_run_follows_iff 4 _ (by decide)).mpr (by decide +kernel)

/-- **A range that straddles the end.**  Of four bytes the last one is to be removed with
two more that do not exist; three bytes are dropped, and almost `2 ^ 64` bytes are
moved. -/
theorem buffer_run_removes_too_much :
    ¬ ∀ (size : ℕ) (calls : List BufferCall),
      EveryStep bufferSessionStep (fun s call => call.Allowed s.buffer.d)
          (bufferStart size) calls →
        EveryStep bufferSessionStep (fun s call => call.Follows s) (bufferStart size) calls := by
  intro hall
  obtain ⟨-, hremove, -⟩ := hall 8 [.pushInt 258 4, .removeRange 3 3] (by decide)
  have hcontents := congrArg List.length hremove.contents
  exact absurd hcontents (by decide)
