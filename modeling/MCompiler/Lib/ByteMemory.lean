/-
# Memory of bytes

A memory of bytes with 64-bit addresses that wrap around, and its little-endian words.  Reading
gives back what was written there (`readWord_writeWord`), and writing leaves the words that are
apart from the one written (`readWord_writeWord_of_apart`).
-/
import MCompiler.Lib.LittleEndian
import Mathlib.Logic.Function.Basic

/-- What the addresses hold. -/
abbrev ByteMemory := UInt64 → UInt8

section Bytes

variable {mem : ByteMemory} {addr addr' : UInt64} {n m : ℕ} {bs : List UInt8}

/-- The `n` bytes from an address on. -/
def readBytes (mem : ByteMemory) (addr : UInt64) (n : ℕ) : List UInt8 :=
  (List.range n).map fun i => mem (addr + UInt64.ofNat i)

/-- The memory with the bytes from an address on overwritten. -/
def writeBytes (mem : ByteMemory) (addr : UInt64) (bs : List UInt8) : ByteMemory :=
  fun a => (bs[(a - addr).toNat]?).getD (mem a)

/-- The `m` bytes from `addr'` on are others than the `n` from `addr` on. -/
def BytesApart (addr : UInt64) (n : ℕ) (addr' : UInt64) (m : ℕ) : Prop :=
  ∀ i < m, n ≤ (addr' + UInt64.ofNat i - addr).toNat

theorem toNat_add_sub (addr : UInt64) {i : ℕ} (hi : i < 2 ^ 64) :
    (addr + UInt64.ofNat i - addr).toNat = i := by
  rw [UInt64.add_comm, UInt64.add_sub_cancel, UInt64.toNat_ofNat', Nat.mod_eq_of_lt hi]

/-- **Reading what was written.** -/
theorem readBytes_writeBytes (h : bs.length ≤ 2 ^ 64) :
    readBytes (writeBytes mem addr bs) addr bs.length = bs := by
  refine List.ext_getElem? fun i => ?_
  unfold readBytes writeBytes
  rw [List.getElem?_map]
  by_cases hi : i < bs.length
  · rw [List.getElem?_range hi, Option.map_some, toNat_add_sub addr (Nat.lt_of_lt_of_le hi h),
      List.getElem?_eq_getElem hi]
    rfl
  · rw [List.getElem?_eq_none (by rw [List.length_range]; omega),
      List.getElem?_eq_none (Nat.le_of_not_lt hi)]
    rfl

/-- **Writing leaves the other bytes.** -/
theorem writeBytes_of_apart {a : UInt64} (h : bs.length ≤ (a - addr).toNat) :
    writeBytes mem addr bs a = mem a := by
  unfold writeBytes
  rw [List.getElem?_eq_none h]
  rfl

theorem readBytes_writeBytes_of_apart (h : BytesApart addr bs.length addr' m) :
    readBytes (writeBytes mem addr bs) addr' m = readBytes mem addr' m := by
  refine List.map_congr_left fun i hi => ?_
  exact writeBytes_of_apart (h i (List.mem_range.mp hi))

/-- What is read depends on the bytes there. -/
theorem readBytes_congr {mem' : ByteMemory}
    (h : ∀ i < n, mem' (addr + UInt64.ofNat i) = mem (addr + UInt64.ofNat i)) :
    readBytes mem' addr n = readBytes mem addr n :=
  List.map_congr_left fun i hi => h i (List.mem_range.mp hi)

end Bytes

section Words

variable {mem : ByteMemory} {addr addr' v : UInt64}

/-- The 64-bit word at an address. -/
def readWord (mem : ByteMemory) (addr : UInt64) : UInt64 :=
  UInt64.ofNat (ofBytesLE (readBytes mem addr 8))

/-- The memory with another word at an address. -/
def writeWord (mem : ByteMemory) (addr v : UInt64) : ByteMemory :=
  writeBytes mem addr (bytesLE 8 v.toNat)

theorem readWord_writeWord : readWord (writeWord mem addr v) addr = v := by
  have hread : readBytes (writeWord mem addr v) addr 8 = bytesLE 8 v.toNat := by
    have hlength := length_bytesLE 8 v.toNat
    rw [← hlength]
    exact readBytes_writeBytes (by rw [hlength]; decide)
  rw [readWord, hread, ofBytesLE_bytesLE, Nat.mod_eq_of_lt (show v.toNat < 256 ^ 8 from v.toNat_lt),
    UInt64.ofNat_toNat]

theorem readWord_writeWord_of_apart (h : BytesApart addr 8 addr' 8) :
    readWord (writeWord mem addr v) addr' = readWord mem addr' := by
  have hlength := length_bytesLE 8 v.toNat
  have hread : readBytes (writeWord mem addr v) addr' 8 = readBytes mem addr' 8 :=
    readBytes_writeBytes_of_apart (by rwa [hlength])
  rw [readWord, hread, readWord]

theorem readWord_congr {mem' : ByteMemory}
    (h : ∀ i < 8, mem' (addr + UInt64.ofNat i) = mem (addr + UInt64.ofNat i)) :
    readWord mem' addr = readWord mem addr := by
  rw [readWord, readBytes_congr h, readWord]

end Words
