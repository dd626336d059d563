/-
# The growable byte buffer (`buffer.c`)

`dbuffer_t` holds a block obtained from `dmalloc`, the capacity it believes the
block has, and the number of bytes in use.  The model keeps the real size of the
block next to the recorded capacity: the two are different numbers once the
buffer has grown, because `dbuffer_ensureCap` replaces the block and leaves
`capacity` as it was.

Every store into a block is logged together with the size of the block it went
into, so that "the call writes inside its allocation" is a statement about the
log.
-/
import Mathlib.Data.List.Basic
import Mathlib.Tactic.SplitIfs
import MCompiler.CInt
import MCompiler.Lib.Runs

open Runs

/-! ## The data type -/

/-- A store of `length` bytes at `offset` of a block of `room` bytes. -/
structure Write where
  offset : ℕ
  length : ℕ
  room : ℕ
  deriving DecidableEq, Repr

/-- The bytes stored lie inside the block. -/
def Write.InBounds (w : Write) : Prop := w.offset + w.length ≤ w.room

instance (w : Write) : Decidable w.InBounds := inferInstanceAs (Decidable (_ ≤ _))

/-- `dbuffer_t`: the block `buffer` points to (its real size `room` and its
contents), the recorded `capacity` and the `usage`.  `writes` logs the stores of
the call in progress. -/
structure Dbuffer where
  room : ℕ
  bytes : ℕ → UInt8
  capacity : ℕ
  usage : ℕ
  writes : List Write

namespace Dbuffer

/-- `memcpy`/`memset` into the block at `offset`. -/
def store (d : Dbuffer) (offset : ℕ) (data : List UInt8) : Dbuffer :=
  { d with
    bytes := fun i =>
      if offset ≤ i ∧ i < offset + data.length then data.getD (i - offset) 0 else d.bytes i
    writes := d.writes ++ [⟨offset, data.length, d.room⟩] }

/-- The first `usage` bytes. -/
def contents (d : Dbuffer) : List UInt8 := (List.range d.usage).map d.bytes

end Dbuffer

/-! ## The operations -/

/-- `dbuffer_initSize`: fresh memory is indeterminate; the zeros that stand for it
are never read, since `usage` is zero. -/
def dbufferInitSize (size : ℕ) : Dbuffer :=
  { room := size, bytes := fun _ => 0, capacity := size, usage := 0, writes := [] }

/-- The block size `dbuffer_ensureCap` asks for,
`max(capacity * 2, capacity * 3 / 2 + size)`. -/
def growthTarget (capacity size : ℕ) : ℕ :=
  max (sizeMul capacity 2) (sizeAdd (sizeMul capacity 3 / 2) size)

/-- `dbuffer_ensureCap`: when the recorded capacity is exceeded, move the used
bytes into a new block.  The source does not update `capacity`. -/
def dbufferEnsureCap (d : Dbuffer) (size : ℕ) : Dbuffer :=
  if size > sizeSub d.capacity d.usage then
    let newSize := growthTarget d.capacity size
    { d with
      room := newSize
      bytes := fun i => if i < d.usage then d.bytes i else 0
      writes := d.writes ++ [⟨0, d.usage, newSize⟩] }
  else d

/-- `dbuffer_pushData`. -/
def dbufferPushData (d : Dbuffer) (data : List UInt8) : Dbuffer :=
  let d := dbufferEnsureCap d data.length
  let d := d.store d.usage data
  { d with usage := sizeAdd d.usage data.length }

/-- `dbuffer_pushStr`: `str` is the string up to its terminating NUL. -/
def dbufferPushStr (d : Dbuffer) (str : List UInt8) : Dbuffer := dbufferPushData d str

/-- `dbuffer_pushChar`. -/
def dbufferPushChar (d : Dbuffer) (ch : UInt8) : Dbuffer := dbufferPushData d [ch]

/-- `dbuffer_pushChars`: `size` copies of `c`, stored by `memset`. -/
def dbufferPushChars (d : Dbuffer) (c : UInt8) (size : ℕ) : Dbuffer :=
  let d := dbufferEnsureCap d size
  let d := d.store d.usage (List.replicate size c)
  { d with usage := sizeAdd d.usage size }

/-- The loop shared by `dbuffer_pushLong` and `dbuffer_pushInt`: push the low byte
(`num & 0xFF`) and go on with `num >> 8`. -/
def pushLowBytes (d : Dbuffer) (num : ℕ) : ℕ → Dbuffer
  | 0 => d
  | bytes + 1 =>
      pushLowBytes (dbufferPushChar d (UInt8.ofNat (num &&& 0xFF))) (num >>> 8) bytes

/-- `dbuffer_pushLong`. -/
def dbufferPushLong (d : Dbuffer) (num : UInt64) (bytes : ℕ) : Dbuffer :=
  pushLowBytes d num.toNat bytes

/-- `dbuffer_pushInt`; its assertion `bytes <= sizeof(size_t)` is part of
`DbufferOp.Allowed`. -/
def dbufferPushInt (d : Dbuffer) (num : UInt32) (bytes : ℕ) : Dbuffer :=
  pushLowBytes d num.toNat bytes

/-- The eight bytes of a pointer as they lie in memory. -/
def ptrBytes (pointer : UInt64) : List UInt8 :=
  (List.range 8).map (fun i => UInt8.ofNat (pointer.toNat >>> (8 * i)))

/-- `dbuffer_pushPtr`: it makes room twice, once itself and once in
`dbuffer_pushData`. -/
def dbufferPushPtr (d : Dbuffer) (pointer : UInt64) : Dbuffer :=
  dbufferPushData (dbufferEnsureCap d 8) (ptrBytes pointer)

/-- `dbuffer_popPtr`. -/
def dbufferPopPtr (d : Dbuffer) : Dbuffer := { d with usage := sizeSub d.usage 8 }

/-- `dbuffer_clear`. -/
def dbufferClear (d : Dbuffer) : Dbuffer := { d with usage := 0 }

/-! ## Calls -/

/-- A call on a buffer, with its arguments. -/
inductive DbufferOp where
  | pushData (data : List UInt8)
  | pushStr (str : List UInt8)
  | pushChar (ch : UInt8)
  | pushChars (c : UInt8) (size : ℕ)
  | pushPtr (pointer : UInt64)
  | pushLong (num : UInt64) (bytes : ℕ)
  | pushInt (num : UInt32) (bytes : ℕ)
  | popPtr
  | clear

/-- The buffer after a call; the log restarts with every call. -/
def dbufferStep (d : Dbuffer) (op : DbufferOp) : Dbuffer :=
  let d := { d with writes := [] }
  match op with
  | .pushData data => dbufferPushData d data
  | .pushStr str => dbufferPushStr d str
  | .pushChar ch => dbufferPushChar d ch
  | .pushChars c size => dbufferPushChars d c size
  | .pushPtr pointer => dbufferPushPtr d pointer
  | .pushLong num bytes => dbufferPushLong d num bytes
  | .pushInt num bytes => dbufferPushInt d num bytes
  | .popPtr => dbufferPopPtr d
  | .clear => dbufferClear d

/-- What a caller may do: sizes are `size_t`, the assertion of `dbuffer_pushInt`
holds, and only a buffer with eight bytes in use is popped. -/
def DbufferOp.Allowed (d : Dbuffer) : DbufferOp → Prop
  | .pushData data => data.length < 2 ^ 64
  | .pushStr str => str.length < 2 ^ 64
  | .pushChar _ => True
  | .pushChars _ size => size < 2 ^ 64
  | .pushPtr _ => True
  | .pushLong _ bytes => bytes < 2 ^ 64
  | .pushInt _ bytes => bytes ≤ 8
  | .popPtr => 8 ≤ d.usage
  | .clear => True

/-- After the call the usage is within the block held, and every byte the call
stored lies inside the block it was stored into. -/
def DbufferOp.Safe (d : Dbuffer) (op : DbufferOp) : Prop :=
  (dbufferStep d op).usage ≤ (dbufferStep d op).room ∧
    ∀ w ∈ (dbufferStep d op).writes, w.InBounds

instance (d : Dbuffer) (op : DbufferOp) : Decidable (op.Allowed d) := by
  cases op <;> unfold DbufferOp.Allowed <;> infer_instance

instance (d : Dbuffer) (op : DbufferOp) : Decidable (op.Safe d) :=
  inferInstanceAs (Decidable (_ ∧ _))

/-! ## When a push fits -/

/-- Pushing `total` bytes, with room made for `chunk` bytes at a time, fits: a push
that crosses the recorded capacity must fit into the block the growth asks for
(and the chunks before the crossing into the present one); any other push must
fit into the present block, whatever its size, because no growth happens. -/
def Dbuffer.Fits (d : Dbuffer) (chunk total : ℕ) : Prop :=
  if d.usage ≤ d.capacity ∧ d.capacity < d.usage + total then
    (chunk ≠ total → d.capacity ≤ d.room) ∧ d.usage + total ≤ growthTarget d.capacity chunk
  else d.usage + total ≤ d.room

/-- The condition on the state before a call under which it stays inside its
allocation. -/
def DbufferOp.Fits (d : Dbuffer) : DbufferOp → Prop
  | .pushData data => d.Fits data.length data.length
  | .pushStr str => d.Fits str.length str.length
  | .pushChar _ => d.Fits 1 1
  | .pushChars _ size => d.Fits size size
  | .pushPtr _ => d.Fits 8 8
  | .pushLong _ bytes => d.Fits 1 bytes
  | .pushInt _ bytes => d.Fits 1 bytes
  | .popPtr => True
  | .clear => True

instance (d : Dbuffer) (chunk total : ℕ) : Decidable (d.Fits chunk total) := by
  unfold Dbuffer.Fits
  infer_instance

instance (d : Dbuffer) (op : DbufferOp) : Decidable (op.Fits d) := by
  cases op <;> unfold DbufferOp.Fits <;> infer_instance

/-! ## The effect of a push on the fields -/

theorem growthTarget_lt (capacity size : ℕ) : growthTarget capacity size < 2 ^ 64 :=
  Nat.max_lt.mpr ⟨sizeMul_lt _ _, sizeAdd_lt _ _⟩

namespace Dbuffer

/-- A request of `size` bytes replaces the block. -/
def Grows (d : Dbuffer) (size : ℕ) : Prop := sizeSub d.capacity d.usage < size

instance (d : Dbuffer) (size : ℕ) : Decidable (d.Grows size) := inferInstanceAs (Decidable (_ < _))

/-- The block size after a request of `size` bytes. -/
def grownRoom (d : Dbuffer) (size : ℕ) : ℕ :=
  if d.Grows size then growthTarget d.capacity size else d.room

/-- The stores of a request of `size` bytes: the copy into the new block, if any. -/
def growthWrites (d : Dbuffer) (size : ℕ) : List Write :=
  if d.Grows size then [⟨0, d.usage, growthTarget d.capacity size⟩] else []

/-- What holds of every buffer reached through calls that stay inside their
allocation. -/
structure Ok (d : Dbuffer) : Prop where
  usage_le : d.usage ≤ d.room
  room_lt : d.room < 2 ^ 64
  capacity_lt : d.capacity < 2 ^ 64

/-- All logged stores lie inside their blocks. -/
def Good (d : Dbuffer) : Prop := ∀ w ∈ d.writes, w.InBounds

theorem Ok.usage_lt {d : Dbuffer} (h : d.Ok) : d.usage < 2 ^ 64 :=
  Nat.lt_of_le_of_lt h.usage_le h.room_lt

theorem Ok.grownRoom_lt {d : Dbuffer} (h : d.Ok) (size : ℕ) : d.grownRoom size < 2 ^ 64 := by
  unfold grownRoom
  split_ifs
  · exact growthTarget_lt _ _
  · exact h.room_lt

/-- When the block is replaced: the push crosses the recorded capacity, or the
capacity has been left behind and the wrapped difference is exceeded. -/
theorem Ok.grows_iff {d : Dbuffer} (h : d.Ok) (size : ℕ) :
    d.Grows size ↔ (d.usage ≤ d.capacity ∧ d.capacity < d.usage + size) ∨
      (d.capacity < d.usage ∧ 2 ^ 64 + d.capacity < d.usage + size) := by
  have hc := h.capacity_lt
  have hu := h.usage_lt
  unfold Grows
  by_cases hle : d.usage ≤ d.capacity
  · rw [sizeSub_of_le hc hle]
    omega
  · rw [sizeSub_of_lt hu (by omega)]
    omega

end Dbuffer

theorem dbufferEnsureCap_fields (d : Dbuffer) (size : ℕ) :
    (dbufferEnsureCap d size).usage = d.usage ∧
    (dbufferEnsureCap d size).capacity = d.capacity ∧
    (dbufferEnsureCap d size).room = d.grownRoom size ∧
    (dbufferEnsureCap d size).writes = d.writes ++ d.growthWrites size := by
  unfold dbufferEnsureCap Dbuffer.grownRoom Dbuffer.growthWrites Dbuffer.Grows
  by_cases h : sizeSub d.capacity d.usage < size <;> simp [h]

@[simp] theorem dbufferEnsureCap_usage (d : Dbuffer) (size : ℕ) :
    (dbufferEnsureCap d size).usage = d.usage := (dbufferEnsureCap_fields d size).1

@[simp] theorem dbufferEnsureCap_capacity (d : Dbuffer) (size : ℕ) :
    (dbufferEnsureCap d size).capacity = d.capacity := (dbufferEnsureCap_fields d size).2.1

@[simp] theorem dbufferEnsureCap_room (d : Dbuffer) (size : ℕ) :
    (dbufferEnsureCap d size).room = d.grownRoom size := (dbufferEnsureCap_fields d size).2.2.1

@[simp] theorem dbufferEnsureCap_writes (d : Dbuffer) (size : ℕ) :
    (dbufferEnsureCap d size).writes = d.writes ++ d.growthWrites size :=
  (dbufferEnsureCap_fields d size).2.2.2

@[simp] theorem dbufferPushData_usage (d : Dbuffer) (data : List UInt8) :
    (dbufferPushData d data).usage = sizeAdd d.usage data.length := by
  simp [dbufferPushData, Dbuffer.store]

@[simp] theorem dbufferPushData_capacity (d : Dbuffer) (data : List UInt8) :
    (dbufferPushData d data).capacity = d.capacity := by
  simp [dbufferPushData, Dbuffer.store]

@[simp] theorem dbufferPushData_room (d : Dbuffer) (data : List UInt8) :
    (dbufferPushData d data).room = d.grownRoom data.length := by
  simp [dbufferPushData, Dbuffer.store]

@[simp] theorem dbufferPushData_writes (d : Dbuffer) (data : List UInt8) :
    (dbufferPushData d data).writes = d.writes ++ d.growthWrites data.length ++
      [⟨d.usage, data.length, d.grownRoom data.length⟩] := by
  simp [dbufferPushData, Dbuffer.store]

/-- `dbuffer_pushChars` is `dbuffer_pushData` of the repeated byte. -/
theorem dbufferPushChars_eq (d : Dbuffer) (c : UInt8) (size : ℕ) :
    dbufferPushChars d c size = dbufferPushData d (List.replicate size c) := by
  simp [dbufferPushChars, dbufferPushData, Dbuffer.store]

/-- A request does not change whether a second one replaces the block: neither the
capacity nor the usage has moved. -/
theorem Dbuffer.grows_ensureCap (d : Dbuffer) (size size' : ℕ) :
    (dbufferEnsureCap d size).Grows size' ↔ d.Grows size' := by
  unfold Dbuffer.Grows
  rw [dbufferEnsureCap_capacity, dbufferEnsureCap_usage]

/-- The block after a second request of the same size is as large as after the first. -/
theorem Dbuffer.grownRoom_ensureCap (d : Dbuffer) (size : ℕ) :
    (dbufferEnsureCap d size).grownRoom size = d.grownRoom size := by
  by_cases h : d.Grows size <;> simp [Dbuffer.grownRoom, Dbuffer.grows_ensureCap, h]

/-! ## One push -/

namespace Dbuffer

/-- The stores of a push of `size` bytes all lie inside their blocks exactly when the
used and the pushed bytes fit into the block held at the end. -/
theorem push_writes_iff (d : Dbuffer) (size : ℕ) :
    (∀ w ∈ d.growthWrites size ++ [⟨d.usage, size, d.grownRoom size⟩], w.InBounds) ↔
      d.usage + size ≤ d.grownRoom size := by
  unfold growthWrites grownRoom
  split_ifs with hg
  · simp only [List.mem_append, List.mem_singleton, Write.InBounds]
    constructor
    · intro hall
      exact hall _ (Or.inr rfl)
    · rintro hle w (rfl | rfl)
      · show 0 + d.usage ≤ growthTarget d.capacity size
        omega
      · exact hle
  · simp [Write.InBounds]

/-- **One push, one request.**  The bytes fit at the end exactly when the push `Fits`. -/
theorem Ok.room_iff_fits {d : Dbuffer} (h : d.Ok) (size : ℕ) :
    d.usage + size ≤ d.grownRoom size ↔ d.Fits size size := by
  have hg := h.grows_iff size
  have ht := growthTarget_lt d.capacity size
  have hr := h.room_lt
  unfold grownRoom Fits
  by_cases hcross : d.usage ≤ d.capacity ∧ d.capacity < d.usage + size
  · rw [if_pos (hg.mpr (Or.inl hcross)), if_pos hcross]
    simp
  · rw [if_neg hcross]
    by_cases hwrap : d.capacity < d.usage ∧ 2 ^ 64 + d.capacity < d.usage + size
    -- the wrapped difference is exceeded: no block holds that many bytes
    · rw [if_pos (hg.mpr (Or.inr hwrap))]
      omega
    · rw [if_neg (fun hgrow => (hg.mp hgrow).elim hcross hwrap)]

end Dbuffer

/-- A push that stays inside the allocation keeps the invariant. -/
theorem dbufferPushData_ok {d : Dbuffer} (h : d.Ok) (data : List UInt8)
    (hfit : d.usage + data.length ≤ d.grownRoom data.length) : (dbufferPushData d data).Ok := by
  have hroom := h.grownRoom_lt data.length
  constructor
  · rw [dbufferPushData_usage, dbufferPushData_room, sizeAdd_of_lt (by omega)]
    exact hfit
  · rw [dbufferPushData_room]
    exact hroom
  · rw [dbufferPushData_capacity]
    exact h.capacity_lt

/-- The log of a push is good exactly when the push fits. -/
theorem dbufferPushData_good_iff {d : Dbuffer} (h : d.Ok) (data : List UInt8) :
    (dbufferPushData d data).Good ↔ d.Good ∧ d.Fits data.length data.length := by
  unfold Dbuffer.Good
  rw [dbufferPushData_writes, List.append_assoc, List.forall_mem_append,
    Dbuffer.push_writes_iff, h.room_iff_fits]

/-- A push with a good log leaves a buffer that satisfies the invariant. -/
theorem dbufferPushData_ok_of_good {d : Dbuffer} (h : d.Ok) (data : List UInt8)
    (hgood : (dbufferPushData d data).Good) : (dbufferPushData d data).Ok :=
  dbufferPushData_ok h data
    ((h.room_iff_fits _).mpr ((dbufferPushData_good_iff h data).mp hgood).2)

/-! ## The pushes of several requests -/

/-- The log of `dbuffer_pushPtr` is good exactly when eight bytes fit.  Its first
request either changes nothing or moves the buffer to the block the second
request asks for again. -/
theorem dbufferPushPtr_good_iff {d : Dbuffer} (h : d.Ok) (pointer : UInt64) :
    (dbufferPushPtr d pointer).Good ↔ d.Good ∧ d.Fits 8 8 := by
  have hlen : (ptrBytes pointer).length = 8 := rfl
  have hsame : (dbufferEnsureCap d 8).growthWrites 8 = d.growthWrites 8 := by
    simp [Dbuffer.growthWrites, Dbuffer.grows_ensureCap]
  have hwrites : (dbufferPushPtr d pointer).writes = d.writes ++ d.growthWrites 8 ++
      (d.growthWrites 8 ++ [⟨d.usage, 8, d.grownRoom 8⟩]) := by
    unfold dbufferPushPtr
    rw [dbufferPushData_writes, hlen, hsame, Dbuffer.grownRoom_ensureCap]
    simp
  unfold Dbuffer.Good
  rw [hwrites, List.append_assoc, List.forall_mem_append, List.forall_mem_append,
    Dbuffer.push_writes_iff, ← h.room_iff_fits]
  constructor
  · rintro ⟨hd, -, hfit⟩
    exact ⟨hd, hfit⟩
  · rintro ⟨hd, hfit⟩
    have hall := (Dbuffer.push_writes_iff d 8).mpr hfit
    exact ⟨hd, fun w hw => hall w (List.mem_append_left _ hw), hfit⟩

/-- A `dbuffer_pushPtr` with a good log keeps the invariant. -/
theorem dbufferPushPtr_ok_of_good {d : Dbuffer} (h : d.Ok) (pointer : UInt64)
    (hgood : (dbufferPushPtr d pointer).Good) : (dbufferPushPtr d pointer).Ok := by
  have hfit := (h.room_iff_fits 8).mpr ((dbufferPushPtr_good_iff h pointer).mp hgood).2
  have hroom := h.grownRoom_lt 8
  have hens : (dbufferEnsureCap d 8).Ok := by
    constructor
    · rw [dbufferEnsureCap_usage, dbufferEnsureCap_room]
      omega
    · rw [dbufferEnsureCap_room]
      exact hroom
    · rw [dbufferEnsureCap_capacity]
      exact h.capacity_lt
  refine dbufferPushData_ok hens _ ?_
  show (dbufferEnsureCap d 8).usage + 8 ≤ (dbufferEnsureCap d 8).grownRoom 8
  rw [dbufferEnsureCap_usage, Dbuffer.grownRoom_ensureCap]
  exact hfit

/-- The log only grows along the byte loop. -/
theorem pushLowBytes_good_imp (bytes : ℕ) (d : Dbuffer) (num : ℕ)
    (hgood : (pushLowBytes d num bytes).Good) : d.Good := by
  induction bytes generalizing d num with
  | zero => exact hgood
  | succ bytes ih =>
      intro w hw
      refine ih _ _ hgood w ?_
      rw [dbufferPushChar, dbufferPushData_writes, List.append_assoc]
      exact List.mem_append_left _ hw

/-- If several single bytes fit, the first one does. -/
theorem Dbuffer.fits_one_of_succ {d : Dbuffer} {bytes : ℕ} (hfit : d.Fits 1 (bytes + 1)) :
    d.Fits 1 1 := by
  unfold Dbuffer.Fits at hfit ⊢
  split_ifs at hfit ⊢ <;> omega

/-- Pushing one byte and then `bytes` more fits exactly when `bytes + 1` single
bytes fit. -/
theorem Dbuffer.Ok.fits_succ {d : Dbuffer} (h : d.Ok) (ch : UInt8) (bytes : ℕ)
    (hfit : d.Fits 1 1) :
    (dbufferPushChar d ch).Fits 1 bytes ↔ d.Fits 1 (bytes + 1) := by
  have hroom := (h.room_iff_fits 1).mpr hfit
  have hlt : d.grownRoom 1 < 2 ^ 64 := h.grownRoom_lt 1
  have husage : (dbufferPushChar d ch).usage = d.usage + 1 := by
    rw [dbufferPushChar, dbufferPushData_usage, List.length_singleton, sizeAdd_of_lt (by omega)]
  have hg := h.grows_iff 1
  have hu := h.usage_le
  have hr := h.room_lt
  unfold Dbuffer.Fits
  rw [husage, dbufferPushChar, dbufferPushData_capacity, dbufferPushData_room,
    List.length_singleton]
  unfold Dbuffer.Fits at hfit
  unfold Dbuffer.grownRoom at hroom ⊢
  by_cases hcap : d.usage = d.capacity
  -- the byte pushed is the one that crosses the capacity
  · have hgrow : d.Grows 1 := hg.mpr (Or.inl ⟨by omega, by omega⟩)
    rw [if_pos hgrow] at hroom ⊢
    rw [if_neg (by omega), if_pos (by omega)]
    constructor
    · intro hle
      exact ⟨fun _ => by omega, by omega⟩
    · rintro ⟨-, hle⟩
      omega
  · have hgrow : ¬ d.Grows 1 := fun hgrow => by
      rcases hg.mp hgrow with h1 | h1
      · omega
      · omega
    rw [if_neg hgrow] at hroom ⊢
    rw [if_neg (by omega)] at hfit
    by_cases hcross : d.usage < d.capacity ∧ d.capacity < d.usage + 1 + bytes
    · rw [if_pos (by omega), if_pos (by omega)]
      constructor
      · rintro ⟨hcr, hle⟩
        refine ⟨fun _ => ?_, by omega⟩
        by_cases hb : bytes = 1
        · omega
        · exact hcr (by omega)
      · rintro ⟨hcr, hle⟩
        exact ⟨fun _ => hcr (by omega), by omega⟩
    · rw [if_neg (by omega), if_neg (by omega)]
      omega

/-- **The byte loop.**  Its log is good exactly when `bytes` single bytes fit; then
the invariant is kept. -/
theorem pushLowBytes_good_iff (bytes : ℕ) (d : Dbuffer) (num : ℕ) (h : d.Ok) :
    ((pushLowBytes d num bytes).Good ↔ d.Good ∧ d.Fits 1 bytes) ∧
      ((pushLowBytes d num bytes).Good → (pushLowBytes d num bytes).Ok) := by
  induction bytes generalizing d num with
  | zero =>
      have hfit : d.Fits 1 0 := by
        unfold Dbuffer.Fits
        rw [if_neg (by omega)]
        exact h.usage_le
      exact ⟨⟨fun hgood => ⟨hgood, hfit⟩, fun hgood => hgood.1⟩, fun _ => h⟩
  | succ bytes ih =>
      set ch := UInt8.ofNat (num &&& 0xFF)
      have hchar := dbufferPushData_good_iff h [ch]
      have hok := dbufferPushData_ok_of_good h [ch]
      rw [List.length_singleton] at hchar
      show ((pushLowBytes (dbufferPushChar d ch) (num >>> 8) bytes).Good ↔ _) ∧ (_ → Dbuffer.Ok
        (pushLowBytes (dbufferPushChar d ch) (num >>> 8) bytes))
      constructor
      · constructor
        · intro hgood
          have hfirst := pushLowBytes_good_imp bytes _ _ hgood
          obtain ⟨hd, hfit⟩ := hchar.mp hfirst
          exact ⟨hd, (h.fits_succ ch bytes hfit).mp
            (((ih _ _ (hok hfirst)).1.mp hgood).2)⟩
        · rintro ⟨hd, hfits⟩
          have hfit : d.Fits 1 1 := Dbuffer.fits_one_of_succ hfits
          have hfirst := hchar.mpr ⟨hd, hfit⟩
          exact (ih _ _ (hok hfirst)).1.mpr ⟨hfirst, (h.fits_succ ch bytes hfit).mpr hfits⟩
      · intro hgood
        have hfirst := pushLowBytes_good_imp bytes _ _ hgood
        exact (ih _ _ (hok hfirst)).2 hgood

/-! ## One call -/

namespace DbufferOp

/-- A call that logs only stores inside their blocks leaves a buffer that satisfies
the invariant, and it is such a call exactly when it `Fits`. -/
theorem good_iff_fits {d : Dbuffer} (h : d.Ok) (op : DbufferOp) (ha : op.Allowed d) :
    ((dbufferStep d op).Good ↔ op.Fits d) ∧ ((dbufferStep d op).Good → (dbufferStep d op).Ok) := by
  -- the step works on the buffer with an empty log, which is as good as `d`
  have h' : ({ d with writes := [] } : Dbuffer).Ok := ⟨h.usage_le, h.room_lt, h.capacity_lt⟩
  have hnil : ({ d with writes := [] } : Dbuffer).Good := fun w hw => absurd hw (by simp)
  have hsame : ∀ chunk total, ({ d with writes := [] } : Dbuffer).Fits chunk total ↔
      d.Fits chunk total := fun _ _ => Iff.rfl
  have hpush : ∀ data : List UInt8,
      ((dbufferPushData { d with writes := [] } data).Good ↔ d.Fits data.length data.length) ∧
        ((dbufferPushData { d with writes := [] } data).Good →
          (dbufferPushData { d with writes := [] } data).Ok) := fun data =>
    ⟨(dbufferPushData_good_iff h' data).trans (and_iff_right hnil),
      dbufferPushData_ok_of_good h' data⟩
  have hloop : ∀ num bytes,
      ((pushLowBytes { d with writes := [] } num bytes).Good ↔ d.Fits 1 bytes) ∧
        ((pushLowBytes { d with writes := [] } num bytes).Good →
          (pushLowBytes { d with writes := [] } num bytes).Ok) := fun num bytes =>
    ⟨(pushLowBytes_good_iff bytes _ num h').1.trans (and_iff_right hnil),
      (pushLowBytes_good_iff bytes _ num h').2⟩
  have hptr : ∀ pointer,
      ((dbufferPushPtr { d with writes := [] } pointer).Good ↔ d.Fits 8 8) ∧
        ((dbufferPushPtr { d with writes := [] } pointer).Good →
          (dbufferPushPtr { d with writes := [] } pointer).Ok) := fun pointer =>
    ⟨(dbufferPushPtr_good_iff h' pointer).trans ((and_iff_right hnil).trans (hsame 8 8)),
      dbufferPushPtr_ok_of_good h' pointer⟩
  cases op with
  | pushData data => exact hpush data
  | pushStr str => exact hpush str
  | pushChar ch => exact hpush [ch]
  | pushChars c size =>
      have hrep := hpush (List.replicate size c)
      rw [List.length_replicate, ← dbufferPushChars_eq] at hrep
      exact hrep
  | pushPtr pointer => exact hptr pointer
  | pushLong num bytes => exact hloop num.toNat bytes
  | pushInt num bytes => exact hloop num.toNat bytes
  | popPtr =>
      have hpop : sizeSub d.usage 8 = d.usage - 8 := sizeSub_of_le h.usage_lt ha
      have hle := h.usage_le
      have hstep : dbufferStep d .popPtr = { d with writes := [], usage := d.usage - 8 } := by
        rw [← hpop]
        rfl
      rw [hstep]
      exact ⟨iff_of_true hnil trivial, fun _ => ⟨by simp only; omega, h.room_lt, h.capacity_lt⟩⟩
  | clear => exact ⟨iff_of_true hnil trivial, fun _ => ⟨Nat.zero_le _, h.room_lt, h.capacity_lt⟩⟩

/-- **One call is safe exactly when it fits.** -/
theorem safe_iff_fits {d : Dbuffer} (h : d.Ok) (op : DbufferOp) (ha : op.Allowed d) :
    op.Safe d ↔ op.Fits d := by
  obtain ⟨hiff, hok⟩ := good_iff_fits h op ha
  constructor
  · rintro ⟨-, hgood⟩
    exact hiff.mp hgood
  · intro hfit
    have hgood := hiff.mpr hfit
    exact ⟨(hok hgood).usage_le, hgood⟩

/-- A safe call keeps the invariant. -/
theorem ok_of_safe {d : Dbuffer} (h : d.Ok) (op : DbufferOp) (ha : op.Allowed d)
    (hs : op.Safe d) : (dbufferStep d op).Ok :=
  (good_iff_fits h op ha).2 hs.2

end DbufferOp

/-! ## Runs of calls -/

theorem dbufferInitSize_ok {n : ℕ} (hn : n < 2 ^ 64) : (dbufferInitSize n).Ok :=
  ⟨Nat.zero_le _, hn, hn⟩

/-- **Runs of calls stay inside the allocation exactly when every call fits.**
From every initial size, a sequence of allowed calls keeps the usage within the
block and stores inside the block throughout if and only if each of its calls
`Fits` in the state it is made in. -/
theorem dbuffer_run_safe_iff (n : ℕ) (hn : n < 2 ^ 64) (ops : List DbufferOp)
    (hall : EveryStep dbufferStep (fun d op => op.Allowed d) (dbufferInitSize n) ops) :
    EveryStep dbufferStep (fun d op => op.Safe d) (dbufferInitSize n) ops ↔
      EveryStep dbufferStep (fun d op => op.Fits d) (dbufferInitSize n) ops :=
  everyStep_iff_of_inv (I := Dbuffer.Ok) (fun _ op h ha => op.safe_iff_fits h ha)
    (fun _ op h ha hs => op.ok_of_safe h ha hs) _ _ (dbufferInitSize_ok hn) hall

/-- A run that grows once and then uses the room the growth left. -/
theorem dbuffer_run_safe_one_growth :
    EveryStep dbufferStep (fun d op => op.Safe d) (dbufferInitSize 16)
      [.pushLong 7 8, .pushPtr 1, .pushInt 5 4, .popPtr, .pushChars 1 3, .clear] :=
  (dbuffer_run_safe_iff 16 (by decide) _ (by decide)).mpr (by decide)

/-- **The second growth never comes.**  A buffer of one byte takes two bytes by
growing to three; the recorded capacity is still one, the room computed from it
wraps around to almost `2 ^ 64`, and the next two bytes are stored past the end. -/
theorem dbuffer_run_overruns :
    ¬ ∀ n : ℕ, 1 ≤ n → n < 2 ^ 64 → ∀ ops : List DbufferOp,
      EveryStep dbufferStep (fun d op => op.Allowed d) (dbufferInitSize n) ops →
        EveryStep dbufferStep (fun d op => op.Safe d) (dbufferInitSize n) ops := fun hsafe =>
  absurd (hsafe 1 (by decide) (by decide) [.pushChars 0 2, .pushChars 0 2] (by decide))
    (by decide)

/-! ## Buffers of pointers -/

theorem growthTarget_ptrs {m : ℕ} (hm : 2 ≤ m) (hlt : 16 * m < 2 ^ 64) :
    growthTarget (8 * m) 8 = 16 * m := by
  have hmul : sizeMul (8 * m) 2 = 16 * m := by
    rw [sizeMul, Nat.mod_eq_of_lt (by omega)]
    omega
  have hthree : sizeMul (8 * m) 3 / 2 ≤ 12 * m := by
    have hle : sizeMul (8 * m) 3 ≤ 8 * m * 3 := Nat.mod_le _ _
    omega
  have hadd : sizeAdd (sizeMul (8 * m) 3 / 2) 8 ≤ 12 * m + 8 := by
    have hle : sizeAdd (sizeMul (8 * m) 3 / 2) 8 ≤ sizeMul (8 * m) 3 / 2 + 8 := Nat.mod_le _ _
    omega
  unfold growthTarget
  rw [hmul]
  omega

/-- A call on a stack of pointers. -/
inductive StackOp where
  | push (pointer : UInt64)
  | pop
  | clear

/-- The call on the buffer. -/
def StackOp.toOp : StackOp → DbufferOp
  | .push pointer => .pushPtr pointer
  | .pop => .popPtr
  | .clear => .clear

/-- The height of the stack after a call. -/
def stackHeight (k : ℕ) : StackOp → ℕ
  | .push _ => k + 1
  | .pop => k - 1
  | .clear => 0

/-- Only a stack that is not empty is popped. -/
def StackOp.Allowed (k : ℕ) : StackOp → Prop
  | .pop => 0 < k
  | _ => True

/-- A push finds fewer than `n` pointers. -/
def StackOp.Below (n k : ℕ) : StackOp → Prop
  | .push _ => k < n
  | _ => True

/-- A buffer with room for `m` pointers at first that holds `k` pointers, and may have grown. -/
structure Dbuffer.StacksPtrs (m k : ℕ) (d : Dbuffer) : Prop where
  ok : d.Ok
  capacity : d.capacity = 8 * m
  usage : d.usage = 8 * k
  room : d.room = 8 * m ∨ d.room = 16 * m

/-- The block after a push. -/
theorem Dbuffer.room_pushPtr (d : Dbuffer) (pointer : UInt64) :
    (dbufferStep d (.pushPtr pointer)).room = d.grownRoom 8 := by
  show (dbufferPushData (dbufferEnsureCap _ 8) (ptrBytes pointer)).room = _
  rw [dbufferPushData_room]
  exact Dbuffer.grownRoom_ensureCap _ 8

/-- A push on a stack. -/
theorem Dbuffer.StacksPtrs.push {m k : ℕ} {d : Dbuffer} (h : d.StacksPtrs m k) (hm : 2 ≤ m)
    (hlt : 16 * m < 2 ^ 64) (pointer : UInt64) :
    ((DbufferOp.pushPtr pointer).Safe d ↔ k < 2 * m) ∧
      (k < 2 * m → (dbufferStep d (.pushPtr pointer)).StacksPtrs m (k + 1)) := by
  have husage := h.usage
  have hcapacity := h.capacity
  have hle := h.ok.usage_le
  have hroom := h.room
  have htarget := growthTarget_ptrs hm hlt
  have hfits : d.Fits 8 8 ↔ k < 2 * m := by
    unfold Dbuffer.Fits
    rw [hcapacity, husage, htarget]
    split_ifs <;> omega
  have hsafe : (DbufferOp.pushPtr pointer).Safe d ↔ k < 2 * m :=
    (DbufferOp.safe_iff_fits h.ok (.pushPtr pointer) trivial).trans hfits
  refine ⟨hsafe, fun hk => ?_⟩
  have hok := DbufferOp.ok_of_safe h.ok (.pushPtr pointer) trivial (hsafe.mpr hk)
  refine ⟨hok, ?_, ?_, ?_⟩
  · show (dbufferPushData (dbufferEnsureCap _ 8) (ptrBytes pointer)).capacity = _
    rw [dbufferPushData_capacity, dbufferEnsureCap_capacity]
    exact hcapacity
  · show (dbufferPushData (dbufferEnsureCap _ 8) (ptrBytes pointer)).usage = _
    rw [dbufferPushData_usage, dbufferEnsureCap_usage]
    show sizeAdd d.usage 8 = _
    rw [husage, sizeAdd_of_lt (by omega)]
    omega
  · rw [Dbuffer.room_pushPtr]
    unfold Dbuffer.grownRoom
    rw [hcapacity, htarget]
    split_ifs
    · exact .inr rfl
    · exact hroom

/-- One call on a stack. -/
theorem Dbuffer.StacksPtrs.step {m k : ℕ} {d : Dbuffer} (h : d.StacksPtrs m k) (hm : 2 ≤ m)
    (hlt : 16 * m < 2 ^ 64) (op : StackOp) (ha : op.Allowed k) :
    (op.toOp.Safe d ↔ op.Below (2 * m) k) ∧
      (op.Below (2 * m) k → (dbufferStep d op.toOp).StacksPtrs m (stackHeight k op)) := by
  have husage := h.usage
  have hle := h.ok.usage_le
  cases op with
  | push pointer => exact h.push hm hlt pointer
  | pop =>
      have hpos : 0 < k := ha
      have hpop : sizeSub d.usage 8 = 8 * (k - 1) := by
        rw [sizeSub_of_le h.ok.usage_lt (by omega)]
        omega
      have hstep : dbufferStep d .popPtr = { d with writes := [], usage := 8 * (k - 1) } := by
        rw [← hpop]
        rfl
      have hok : (dbufferStep d .popPtr).Ok := by
        rw [hstep]
        exact ⟨by simp only; omega, h.ok.room_lt, h.ok.capacity_lt⟩
      rw [StackOp.toOp]
      refine ⟨iff_of_true ⟨hok.usage_le, by rw [hstep]; exact nofun⟩ trivial, fun _ => ?_⟩
      rw [hstep] at hok ⊢
      exact ⟨hok, h.capacity, rfl, h.room⟩
  | clear =>
      have hok : (dbufferStep d .clear).Ok :=
        ⟨Nat.zero_le _, h.ok.room_lt, h.ok.capacity_lt⟩
      exact ⟨iff_of_true ⟨hok.usage_le, nofun⟩ trivial, fun _ => ⟨hok, h.capacity, rfl, h.room⟩⟩

/-- **A stack takes twice as many pointers as it first has room for.** -/
theorem stackOps_safe_iff {m : ℕ} (hm : 2 ≤ m) (hlt : 16 * m < 2 ^ 64) (ops : List StackOp)
    (hall : EveryStep stackHeight (fun k op => op.Allowed k) 0 ops) :
    EveryStep dbufferStep (fun d op => op.Safe d) (dbufferInitSize (8 * m))
        (ops.map StackOp.toOp) ↔
      EveryStep stackHeight (fun k op => op.Below (2 * m) k) 0 ops := by
  have hstart : (dbufferInitSize (8 * m)).StacksPtrs m 0 :=
    ⟨dbufferInitSize_ok (by omega), rfl, rfl, .inl rfl⟩
  generalize dbufferInitSize (8 * m) = d at hstart
  generalize 0 = k at hstart hall
  induction ops generalizing d k with
  | nil => exact Iff.rfl
  | cons op ops ih =>
      obtain ⟨hsafe, hnext⟩ := hstart.step hm hlt op hall.1
      rw [List.map_cons, everyStep_cons, everyStep_cons, hsafe]
      exact and_congr_right fun hbelow => ih _ _ (hnext hbelow) hall.2

/-- **A buffer takes twice as many pointers as it first has room for**, and the next one
is stored past its end. -/
theorem pushPtrs_safe_iff {m : ℕ} (hm : 2 ≤ m) (hlt : 16 * m < 2 ^ 64) (pointers : List UInt64) :
    EveryStep dbufferStep (fun d op => op.Safe d) (dbufferInitSize (8 * m))
      (pointers.map DbufferOp.pushPtr) ↔ pointers.length ≤ 2 * m := by
  have hallowed : ∀ (pointers : List UInt64) k,
      EveryStep stackHeight (fun k op => op.Allowed k) k (pointers.map StackOp.push) := by
    intro pointers
    induction pointers with
    | nil => exact fun k => trivial
    | cons p pointers ih => exact fun k => ⟨trivial, ih (k + 1)⟩
  have hbelow : ∀ (pointers : List UInt64) k, k ≤ 2 * m →
      (EveryStep stackHeight (fun k op => op.Below (2 * m) k) k (pointers.map StackOp.push) ↔
        k + pointers.length ≤ 2 * m) := by
    intro pointers
    induction pointers with
    | nil => exact fun k hk => iff_of_true trivial hk
    | cons p pointers ih =>
        intro k hk
        rw [List.map_cons, everyStep_cons, List.length_cons]
        show k < 2 * m ∧ EveryStep _ _ (k + 1) _ ↔ _
        by_cases hroom : k < 2 * m
        · rw [ih (k + 1) hroom]
          omega
        · omega
  have hiff := stackOps_safe_iff hm hlt _ (hallowed pointers 0)
  rw [hbelow pointers 0 (Nat.zero_le _), Nat.zero_add, List.map_map] at hiff
  exact hiff

/-- A buffer with room for `m` pointers at first that holds `k` pointers. -/
structure Dbuffer.HoldsPtrs (m k : ℕ) (d : Dbuffer) : Prop where
  ok : d.Ok
  capacity : d.capacity = 8 * m
  usage : d.usage = 8 * k
  room : d.room = if k ≤ m then 8 * m else 16 * m

theorem Dbuffer.HoldsPtrs.stacks {m k : ℕ} {d : Dbuffer} (h : d.HoldsPtrs m k) :
    d.StacksPtrs m k := by
  refine ⟨h.ok, h.capacity, h.usage, ?_⟩
  rw [h.room]
  split_ifs
  · exact .inl rfl
  · exact .inr rfl

/-- The buffer grows once, to twice its size. -/
theorem Dbuffer.HoldsPtrs.push {m k : ℕ} {d : Dbuffer} (h : d.HoldsPtrs m k) (hm : 2 ≤ m)
    (hlt : 16 * m < 2 ^ 64) (pointer : UInt64) :
    ((DbufferOp.pushPtr pointer).Safe d ↔ k < 2 * m) ∧
      (k < 2 * m → (dbufferStep d (.pushPtr pointer)).HoldsPtrs m (k + 1)) := by
  obtain ⟨hsafe, hnext⟩ := h.stacks.push hm hlt pointer
  refine ⟨hsafe, fun hk => ?_⟩
  obtain ⟨hok, hcapacity, husage, -⟩ := hnext hk
  refine ⟨hok, hcapacity, husage, ?_⟩
  have hgrow := h.ok.grows_iff 8
  rw [Dbuffer.room_pushPtr]
  unfold Dbuffer.grownRoom
  rw [h.capacity, h.usage] at hgrow
  rw [h.capacity, growthTarget_ptrs hm hlt, h.room]
  -- it grows at the pointer that finds the first block full
  by_cases hfull : k = m
  · rw [if_pos (hgrow.mpr (Or.inl ⟨by omega, by omega⟩)), if_neg (by omega)]
  · have hkept : ¬ d.Grows 8 := by
      intro hg
      rcases hgrow.mp hg with h1 | h1 <;> omega
    rw [if_neg hkept]
    by_cases hlow : k ≤ m
    · rw [if_pos hlow, if_pos (by omega)]
    · rw [if_neg hlow, if_neg (by omega)]

/-- A buffer that first has `size` bytes holds `n` pointers, whatever they are. -/
def PointersStored (size n : ℕ) : Prop :=
  ∀ pointers : List UInt64, pointers.length = n →
    EveryStep dbufferStep (fun d op => op.Safe d) (dbufferInitSize size)
      (pointers.map DbufferOp.pushPtr)

theorem pointersStored_iff {m n : ℕ} (hm : 2 ≤ m) (hlt : 16 * m < 2 ^ 64) :
    PointersStored (8 * m) n ↔ n ≤ 2 * m := by
  constructor
  · intro h
    have hlength : (List.replicate n (0 : UInt64)).length = n := List.length_replicate
    have hle := (pushPtrs_safe_iff hm hlt _).mp (h _ hlength)
    omega
  · rintro h pointers rfl
    exact (pushPtrs_safe_iff hm hlt pointers).mpr h

/-- The buffers of `dbuffer_init` hold 250 pointers. -/
theorem pointersStored_init_iff {n : ℕ} : PointersStored 1000 n ↔ n ≤ 250 :=
  pointersStored_iff (show 2 ≤ 125 by decide) (by decide)

instance : DecidablePred (PointersStored 1000) := fun _ =>
  decidable_of_iff _ pointersStored_init_iff.symm
