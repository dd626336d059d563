/-
# The operand array of a phi (`ir.c`)

A phi keeps its operands in a growable buffer of pointers, with a second pointer to the
storage and a count beside it, which must be kept up to date with the buffer.  The buffer is
the one of `buffer.c`, in bytes; a pointer to a block of storage that has been replaced, or
to something else, is not read through.

* `phi_mirrors_iff` : the pointer is wrong after `inst_new_phi`, which takes the address of
  the field `buffer` instead of its value.  The first `inst_phi_insertValue` puts it right,
  if it gets that far: if the phi was created without operands, and as long as it has no more
  pairs than its buffer takes.
-/
import Mathlib.Algebra.Group.Nat.Even
import MCompiler.BufferContents
import MCompiler.Lib.Runs
import MCompiler.Lib.Stopping

open Runs

/-! ## Pointers in a buffer -/

/-- The pointer in the slot `i` of a buffer. -/
def Dbuffer.ptrAt (d : Dbuffer) (i : ℕ) : UInt64 :=
  UInt64.ofNat (ofBytesLE ((List.range 8).map fun k => d.bytes (8 * i + k)))

/-- A pointer written to the slot `i`. -/
def Dbuffer.setPtr (d : Dbuffer) (i : ℕ) (pointer : UInt64) : Dbuffer :=
  d.store (8 * i) (ptrBytes pointer)

/-! ## The phi -/

/-- `use_t`, without its place in the list of the value's uses. -/
structure UseCell where
  inst : ℕ
  value : ℕ

/-- What `phi->uses` points to: the field `buffer` of `useBuffer`, or a block of storage. -/
inductive UsesPtr where
  | field
  | storage (block : ℕ)
  deriving DecidableEq

/-- Where the execution stops: at a read or write through a pointer that is not one to the
storage, at one beyond the storage, at an empty slot or at the assertion. -/
inductive PhiStop where
  | stalePointer | overrun | emptyUse | invalidUse
  deriving DecidableEq

/-- `inst_phi_t`, with the uses allocated so far.  `block` is the block of storage that
`useBuffer.buffer` points to. -/
structure PhiInst where
  useBuffer : Dbuffer
  block : ℕ
  useCount : ℕ
  uses : UsesPtr
  cells : UInt64 → UseCell
  allocated : ℕ

namespace PhiInst

/-- `inst_new_phi`. -/
def instNewPhi (cells : UInt64 → UseCell) (allocated valueCount : ℕ) : PhiInst :=
  let useReserve := sizeMul (max valueCount 8) 2
  { useBuffer := dbufferInitSize (sizeMul 8 useReserve)
    block := 0
    useCount := sizeMul valueCount 2
    -- `&phi->useBuffer.buffer`
    uses := .field
    cells := cells
    allocated := allocated }

/-- `phi->uses[i]`. -/
def readUse (s : PhiInst) (i : ℕ) : Except PhiStop UInt64 :=
  if s.uses = .storage s.block then
    if 8 * i + 8 ≤ s.useBuffer.room then .ok (s.useBuffer.ptrAt i) else .error .overrun
  else .error .stalePointer

/-- `phi->uses[i] = use`. -/
def writeUse (s : PhiInst) (i : ℕ) (use : UInt64) : Except PhiStop PhiInst :=
  if s.uses = .storage s.block then
    if 8 * i + 8 ≤ s.useBuffer.room then
      .ok { s with useBuffer := s.useBuffer.setPtr i use }
    else .error .overrun
  else .error .stalePointer

/-- `phi->uses[i]->value`. -/
def useValue (s : PhiInst) (i : ℕ) : Except PhiStop ℕ := do
  let use ← s.readUse i
  if use = 0 then .error .emptyUse else .ok (s.cells use).value

/-- `dbuffer_pushPtr` on `useBuffer`: every request that makes the buffer grow moves the
storage, and a push beyond it stops. -/
def pushPtr (s : PhiInst) (pointer : UInt64) : Except PhiStop PhiInst :=
  if (DbufferOp.pushPtr pointer).Safe s.useBuffer then
    .ok { s with
      useBuffer := dbufferStep s.useBuffer (.pushPtr pointer)
      block := if s.useBuffer.Grows 8 then s.block + 2 else s.block }
  else .error .overrun

variable (alloc : ℕ → UInt64) (phi : ℕ)

/-- `inst_setUse` on the phi.  `alloc` are the addresses that the zone returns for new
uses. -/
def instSetUse (s : PhiInst) (useOffset value : ℕ) : Except PhiStop PhiInst :=
  if useOffset < s.useCount then do
    let old ← s.readUse useOffset
    let use := if old = 0 then alloc s.allocated else old
    let allocated := if old = 0 then s.allocated + 1 else s.allocated
    { s with cells := Function.update s.cells use ⟨phi, value⟩, allocated := allocated }.writeUse
      useOffset use
  else .error .invalidUse

/-- The loop of `inst_phi_insertValue` over the pairs from the slot `i` on. -/
def findPair (s : PhiInst) (block value : ℕ) : ℕ → ℕ → Except PhiStop Bool
  | 0, _ => .ok false
  | pairs + 1, i => do
      let b ← s.useValue i
      let same ← if b = block then (fun v => decide (v = value)) <$> s.useValue (i + 1)
        else .ok false
      if same then .ok true else s.findPair block value pairs (i + 2)

/-- The end of `inst_phi_insertValue`, with the two slots of the pair pushed. -/
def setPair (s : PhiInst) (block value : ℕ) : Except PhiStop PhiInst := do
  let s := { s with uses := .storage s.block, useCount := sizeAdd s.useCount 2 }
  let s ← s.instSetUse alloc phi (sizeSub s.useCount 2) block
  s.instSetUse alloc phi (sizeSub s.useCount 1) value

/-- `inst_phi_insertValue`. -/
def instPhiInsertValue (s : PhiInst) (block value : ℕ) : Except PhiStop PhiInst := do
  let found ← s.findPair block value ((s.useCount + 1) / 2) 0
  if found then .ok s
  else do
    let s ← s.pushPtr 0
    let s ← s.pushPtr 0
    s.setPair alloc phi block value

end PhiInst

/-- A call on the phi. -/
inductive PhiOp where
  | insertValue (block value : ℕ)
  | setUse (useOffset value : ℕ)

/-- The call. -/
def PhiOp.run (alloc : ℕ → UInt64) (phi : ℕ) (s : PhiInst) : PhiOp → Except PhiStop PhiInst
  | .insertValue block value => s.instPhiInsertValue alloc phi block value
  | .setUse useOffset value => s.instSetUse alloc phi useOffset value

/-- **The operands mirror the buffer**: `uses` is the start of the storage, `useCount` the
number of the pointers in the buffer, which come in pairs, and every slot is empty or holds a
use of the phi. -/
structure Mirrors (phi : ℕ) (s : PhiInst) : Prop where
  uses : s.uses = .storage s.block
  count : s.useCount = s.useBuffer.usage / 8
  even : Even s.useCount
  slots : ∀ i < s.useCount, s.useBuffer.ptrAt i = 0 ∨
    (s.cells (s.useBuffer.ptrAt i)).inst = phi

/-- The call as a step that may fail. -/
def phiStep (alloc : ℕ → UInt64) (phi : ℕ) (s : PhiInst) (op : PhiOp) : Option PhiInst :=
  (op.run alloc phi s).toOption

/-- The slots set are below `useCount`. -/
def PhiOp.Allowed (s : PhiInst) : PhiOp → Prop
  | .insertValue _ _ => True
  | .setUse useOffset _ => useOffset < s.useCount

/-- The call ends in a phi whose operands mirror the buffer. -/
def PhiOp.Keeps (alloc : ℕ → UInt64) (phi : ℕ) (s : PhiInst) (op : PhiOp) : Prop :=
  ∃ s', phiStep alloc phi s op = some s' ∧ Mirrors phi s'

/-- A call that inserts a pair finds it, or finds fewer than sixteen pairs. -/
def PhiOp.Fits (s : PhiInst) : PhiOp → Prop
  | .insertValue block value =>
      s.findPair block value ((s.useCount + 1) / 2) 0 = .ok true ∨ s.useCount < 32
  | .setUse _ _ => True

/-! ## Pointers as bytes -/

theorem ofBytesLE_ptrBytes (pointer : UInt64) :
    UInt64.ofNat (ofBytesLE (ptrBytes pointer)) = pointer := by
  rw [LoggedBuffer.ptrBytes_eq, ofBytesLE_bytesLE,
    Nat.mod_eq_of_lt (show pointer.toNat < 256 ^ 8 from pointer.toNat_lt), UInt64.ofNat_toNat]

namespace Dbuffer

theorem ptrAt_congr {d d' : Dbuffer} {i : ℕ}
    (h : ∀ k < 8, d.bytes (8 * i + k) = d'.bytes (8 * i + k)) : d.ptrAt i = d'.ptrAt i := by
  have hmap : (List.range 8).map (fun k => d.bytes (8 * i + k))
      = (List.range 8).map (fun k => d'.bytes (8 * i + k)) := by
    apply List.map_congr_left
    intro k hk
    exact h k (List.mem_range.1 hk)
  rw [ptrAt, ptrAt, hmap]

theorem ptrAt_setPtr (d : Dbuffer) (i j : ℕ) (pointer : UInt64) :
    (d.setPtr j pointer).ptrAt i = if i = j then pointer else d.ptrAt i := by
  have hlength : (ptrBytes pointer).length = 8 := rfl
  by_cases hij : i = j
  · rw [if_pos hij, hij]
    have hbytes : (List.range 8).map (fun k => (d.setPtr j pointer).bytes (8 * j + k))
        = ptrBytes pointer := by
      apply List.map_congr_left
      intro k hk
      have hlt := List.mem_range.1 hk
      have hin : 8 * j ≤ 8 * j + k ∧ 8 * j + k < 8 * j + (ptrBytes pointer).length := by omega
      simp only [setPtr, store, if_pos hin, Nat.add_sub_cancel_left]
      simp [ptrBytes, hlt]
    rw [ptrAt, hbytes, ofBytesLE_ptrBytes]
  · rw [if_neg hij]
    apply ptrAt_congr
    intro k hk
    have hout : ¬ (8 * j ≤ 8 * i + k ∧ 8 * i + k < 8 * j + (ptrBytes pointer).length) := by
      omega
    simp only [setPtr, store, if_neg hout]

theorem ptrAt_ensureCap {d : Dbuffer} {k i : ℕ} (husage : d.usage = 8 * k) (hi : i < k) :
    (dbufferEnsureCap d 8).ptrAt i = d.ptrAt i := by
  apply ptrAt_congr
  intro b hb
  exact LoggedBuffer.ensureCap_bytes d 8 _ (by omega)

theorem ptrAt_pushData {d : Dbuffer} {k i : ℕ} (husage : d.usage = 8 * k) (hi : i ≤ k)
    (pointer : UInt64) :
    (dbufferPushData d (ptrBytes pointer)).ptrAt i = if i = k then pointer else d.ptrAt i := by
  have hlength : (ptrBytes pointer).length = 8 := rfl
  have hset : (dbufferPushData d (ptrBytes pointer)).ptrAt i
      = ((dbufferEnsureCap d 8).setPtr k pointer).ptrAt i := by
    apply ptrAt_congr
    intro b _
    simp only [dbufferPushData, setPtr, hlength, dbufferEnsureCap_usage, husage]
  rw [hset, ptrAt_setPtr]
  split_ifs with hik
  · rfl
  · exact ptrAt_ensureCap husage (by omega)

/-- A pointer pushed behind `k` pointers. -/
theorem ptrAt_pushPtr {d : Dbuffer} {k i : ℕ} (husage : d.usage = 8 * k) (hi : i ≤ k)
    (pointer : UInt64) :
    (dbufferStep d (.pushPtr pointer)).ptrAt i = if i = k then pointer else d.ptrAt i := by
  have husage' : (dbufferEnsureCap { d with writes := [] } 8).usage = 8 * k := by
    rw [dbufferEnsureCap_usage]
    exact husage
  rw [dbufferStep, dbufferPushPtr, ptrAt_pushData husage' hi]
  split_ifs with hik
  · rfl
  · rw [@ptrAt_ensureCap { d with writes := [] } k i husage (by omega)]
    rfl

theorem HoldsPtrs.setPtr {m k : ℕ} {d : Dbuffer} (h : d.HoldsPtrs m k) (i : ℕ)
    (pointer : UInt64) : (d.setPtr i pointer).HoldsPtrs m k :=
  ⟨⟨h.ok.usage_le, h.ok.room_lt, h.ok.capacity_lt⟩, h.capacity, h.usage, h.room⟩

end Dbuffer

/-! ## The operations on a mirrored phi -/

namespace PhiInst

variable {alloc : ℕ → UInt64} {phi : ℕ}

/-- The slot holds a use of the phi. -/
def Filled (phi : ℕ) (s : PhiInst) (i : ℕ) : Prop :=
  s.useBuffer.ptrAt i ≠ 0 ∧ (s.cells (s.useBuffer.ptrAt i)).inst = phi

theorem room_of_holds {s : PhiInst} {k i : ℕ} (hholds : s.useBuffer.HoldsPtrs 16 k)
    (hk : k ≤ 32) (hi : i < k) : 8 * i + 8 ≤ s.useBuffer.room := by
  rw [hholds.room]
  split_ifs <;> omega

theorem readUse_eq {s : PhiInst} {k i : ℕ} (hholds : s.useBuffer.HoldsPtrs 16 k) (hk : k ≤ 32)
    (huses : s.uses = .storage s.block) (hi : i < k) :
    s.readUse i = .ok (s.useBuffer.ptrAt i) := by
  rw [readUse, if_pos huses, if_pos (room_of_holds hholds hk hi)]

/-- `inst_setUse` on a slot of the storage: the slot is filled, and the others stay so. -/
theorem instSetUse_spec (halloc : ∀ n, alloc n ≠ 0) {s : PhiInst} {k i : ℕ} (value : ℕ)
    (hholds : s.useBuffer.HoldsPtrs 16 k) (hk : k ≤ 32) (huses : s.uses = .storage s.block)
    (hi : i < s.useCount) (hik : i < k) :
    ∃ s', s.instSetUse alloc phi i value = .ok s' ∧ s'.useBuffer.HoldsPtrs 16 k ∧
      s'.uses = .storage s'.block ∧ s'.useCount = s.useCount ∧ s'.Filled phi i ∧
      ∀ j, s.Filled phi j → s'.Filled phi j := by
  rw [instSetUse, if_pos hi, readUse_eq hholds hk huses hik]
  generalize hold : s.useBuffer.ptrAt i = old
  simp only [bind, Except.bind, writeUse, if_pos huses, if_pos (room_of_holds hholds hk hik)]
  have huse : (if old = 0 then alloc s.allocated else old) ≠ 0 := by
    split_ifs with hzero
    · exact halloc _
    · exact hzero
  generalize (if old = 0 then alloc s.allocated else old) = use at huse
  refine ⟨_, rfl, hholds.setPtr i use, huses, rfl, ?_, ?_⟩
  · constructor
    · simp only [Dbuffer.ptrAt_setPtr, if_pos]
      exact huse
    · simp [Dbuffer.ptrAt_setPtr]
  · rintro j ⟨hne, hinst⟩
    constructor
    · simp only [Dbuffer.ptrAt_setPtr]
      split_ifs
      · exact huse
      · exact hne
    · rw [Dbuffer.ptrAt_setPtr]
      dsimp only
      rw [Function.update_apply]
      by_cases hj : j = i
      · rw [if_pos hj, if_pos rfl]
      · rw [if_neg hj]
        by_cases hptr : s.useBuffer.ptrAt j = use
        · rw [if_pos hptr]
        · rw [if_neg hptr]
          exact hinst

theorem useValue_eq {s : PhiInst} {k i : ℕ} (hholds : s.useBuffer.HoldsPtrs 16 k) (hk : k ≤ 32)
    (huses : s.uses = .storage s.block) (hi : i < k) (hfilled : s.Filled phi i) :
    s.useValue i = .ok (s.cells (s.useBuffer.ptrAt i)).value := by
  rw [useValue, readUse_eq hholds hk huses hi]
  simp only [bind, Except.bind, if_neg hfilled.1]

/-- The search finds its way through filled slots. -/
theorem findPair_ok {s : PhiInst} {k : ℕ} (block value : ℕ)
    (hholds : s.useBuffer.HoldsPtrs 16 k) (hk : k ≤ 32) (huses : s.uses = .storage s.block)
    (hfilled : ∀ j < k, s.Filled phi j) (pairs i : ℕ) (hi : i + 2 * pairs ≤ k) :
    ∃ found, s.findPair block value pairs i = .ok found := by
  induction pairs generalizing i with
  | zero =>
    rw [findPair]
    exact ⟨false, rfl⟩
  | succ pairs ih =>
    have hb := useValue_eq hholds hk huses (by omega : i < k) (hfilled i (by omega))
    have hv := useValue_eq hholds hk huses (by omega : i + 1 < k) (hfilled (i + 1) (by omega))
    obtain ⟨found, hrest⟩ := ih (i + 2) (by omega)
    rw [findPair, hb, hv]
    generalize (s.cells (s.useBuffer.ptrAt i)).value = b
    generalize (s.cells (s.useBuffer.ptrAt (i + 1))).value = v
    simp only [bind, Except.bind, Functor.map, Except.map]
    by_cases hblock : b = block
    · by_cases hsame : v = value
      · exact ⟨true, by simp [hblock, hsame]⟩
      · exact ⟨found, by simp [hblock, hsame, hrest]⟩
    · exact ⟨found, by simp [hblock, hrest]⟩

/-- A phi with `n` pairs of uses. -/
structure HasPairs (phi n : ℕ) (s : PhiInst) : Prop where
  le : n ≤ 16
  holds : s.useBuffer.HoldsPtrs 16 (2 * n)
  count : s.useCount = 2 * n
  uses : 0 < n → s.uses = .storage s.block
  filled : ∀ i < 2 * n, s.Filled phi i

theorem HasPairs.mirrors {n : ℕ} {s : PhiInst} (h : s.HasPairs phi n) (hn : 0 < n) :
    Mirrors phi s where
  uses := h.uses hn
  count := by
    rw [h.count, h.holds.usage]
    omega
  even := ⟨n, by rw [h.count]; omega⟩
  slots := fun i hi => .inr (h.filled i (h.count ▸ hi)).2

/-- A new phi without operands. -/
theorem hasPairs_new (cells : UInt64 → UseCell) (allocated : ℕ) :
    (instNewPhi cells allocated 0).HasPairs phi 0 where
  le := by omega
  holds := by
    have hsize : sizeMul 8 (sizeMul (max 0 8) 2) = 8 * 16 := by decide
    rw [instNewPhi, hsize]
    exact ⟨dbufferInitSize_ok (by decide), rfl, rfl, rfl⟩
  count := rfl
  uses := fun h => absurd h (by omega)
  filled := fun i hi => absurd hi (by omega)

/-- A pointer pushed behind `k` pointers: the next slot is there, and empty if the pointer
is null. -/
theorem pushPtr_spec {s : PhiInst} {k : ℕ} (hholds : s.useBuffer.HoldsPtrs 16 k) :
    (k < 32 → ∃ s', s.pushPtr 0 = .ok s' ∧ s'.useBuffer.HoldsPtrs 16 (k + 1) ∧
      s'.useCount = s.useCount ∧ ∀ j < k, s.Filled phi j → s'.Filled phi j) ∧
    (¬ k < 32 → s.pushPtr 0 = .error .overrun) := by
  obtain ⟨hsafe, hnext⟩ := hholds.push (by omega) (by omega) 0
  constructor
  · intro hk
    refine ⟨_, if_pos (hsafe.2 (by omega)), hnext (by omega), rfl, ?_⟩
    intro j hj hfilled
    have hptr := Dbuffer.ptrAt_pushPtr hholds.usage (Nat.le_of_lt hj) 0
    rw [if_neg (by omega)] at hptr
    rw [Filled, hptr]
    exact hfilled
  · intro hk
    exact if_neg fun h => hk (by have := hsafe.1 h; omega)

/-- The two slots pushed are set to the block and to the value. -/
theorem setPair_spec (halloc : ∀ n, alloc n ≠ 0) {n : ℕ} {s : PhiInst} (hn : n < 16)
    (hholds : s.useBuffer.HoldsPtrs 16 (2 * n + 1 + 1)) (hcount : s.useCount = 2 * n)
    (hfilled : ∀ i < 2 * n, s.Filled phi i) (block value : ℕ) :
    ∃ s', s.setPair alloc phi block value = .ok s' ∧ s'.HasPairs phi (n + 1) := by
  have hadd : sizeAdd s.useCount 2 = 2 * n + 2 := by
    rw [hcount, sizeAdd_of_lt (by omega)]
  have hsub₂ : sizeSub (2 * n + 2) 2 = 2 * n := by
    rw [sizeSub_of_le (by omega) (by omega)]
    omega
  have hsub₁ : sizeSub (2 * n + 2) 1 = 2 * n + 1 := by
    rw [sizeSub_of_le (by omega) (by omega)]
    omega
  -- the pointer is the start of the storage from here on
  let opened : PhiInst := { s with uses := .storage s.block, useCount := 2 * n + 2 }
  have hopened : ∀ i < 2 * n, opened.Filled phi i := hfilled
  obtain ⟨first, hfirst, hholds₁, huses₁, hcount₁, hnew₁, hfilled₁⟩ :=
    @instSetUse_spec alloc phi halloc opened _ (2 * n) block hholds (by omega) rfl
      (by show 2 * n < 2 * n + 2; omega) (by omega)
  have hcount₁' : first.useCount = 2 * n + 2 := hcount₁
  obtain ⟨second, hsecond, hholds₂, huses₂, hcount₂, hnew₂, hfilled₂⟩ :=
    @instSetUse_spec alloc phi halloc first _ (2 * n + 1) value hholds₁ (by omega) huses₁
      (by omega) (by omega)
  refine ⟨second, ?_, by omega, hholds₂, by omega, fun _ => huses₂, ?_⟩
  · rw [setPair]
    dsimp only
    rw [hadd, hsub₂, hfirst, ok_bind, hcount₁', hsub₁, hsecond]
  · intro i hi
    by_cases hlow : i < 2 * n
    · exact hfilled₂ i (hfilled₁ i (hopened i hlow))
    · by_cases hblock : i = 2 * n
      · exact hblock ▸ hfilled₂ _ hnew₁
      · have hvalue : i = 2 * n + 1 := by omega
        exact hvalue ▸ hnew₂

/-- A pair that is not found is appended while there is room. -/
theorem insertPair_spec (halloc : ∀ n, alloc n ≠ 0) {n : ℕ} {s : PhiInst}
    (h : s.HasPairs phi n) (hn : n < 16) (block value : ℕ)
    (hfind : s.findPair block value ((s.useCount + 1) / 2) 0 = .ok false) :
    ∃ s', s.instPhiInsertValue alloc phi block value = .ok s' ∧ s'.HasPairs phi (n + 1) := by
  obtain ⟨first, hfirst, hholds₁, hcount₁, hfilled₁⟩ := (pushPtr_spec h.holds).1 (by omega)
  obtain ⟨second, hsecond, hholds₂, hcount₂, hfilled₂⟩ := (pushPtr_spec hholds₁).1 (by omega)
  obtain ⟨s', hset, hpairs⟩ := setPair_spec halloc hn hholds₂
    (hcount₂.trans (hcount₁.trans h.count))
    (fun i hi => hfilled₂ i (by omega) (hfilled₁ i hi (h.filled i hi))) block value
  refine ⟨s', ?_, hpairs⟩
  rw [instPhiInsertValue, hfind, ok_bind, if_neg Bool.false_ne_true, hfirst, ok_bind, hsecond,
    ok_bind, hset]

/-- A seventeenth pair does not fit. -/
theorem insertPair_overrun {n : ℕ} {s : PhiInst} (h : s.HasPairs phi n) (hn : ¬ n < 16)
    (block value : ℕ)
    (hfind : s.findPair block value ((s.useCount + 1) / 2) 0 = .ok false) :
    s.instPhiInsertValue alloc phi block value = .error .overrun := by
  have hpush := (@pushPtr_spec phi s _ h.holds).2 (by omega)
  rw [instPhiInsertValue, hfind, ok_bind, if_neg Bool.false_ne_true, hpush, error_bind]

/-- The search among `n` pairs, which finds none among none. -/
theorem HasPairs.findPair_ok {n : ℕ} {s : PhiInst} (h : s.HasPairs phi n) (block value : ℕ) :
    ∃ found, s.findPair block value ((s.useCount + 1) / 2) 0 = .ok found ∧
      (found = true → 0 < n) := by
  have hpairs : (s.useCount + 1) / 2 = n := by
    rw [h.count]
    omega
  rw [hpairs]
  by_cases hn : 0 < n
  · obtain ⟨found, hfound⟩ := PhiInst.findPair_ok block value h.holds
      (by have := h.le; omega) (h.uses hn) h.filled n 0 (by omega)
    exact ⟨found, hfound, fun _ => hn⟩
  · have hzero : n = 0 := by omega
    rw [hzero, findPair]
    exact ⟨false, rfl, by simp⟩

end PhiInst

/-! ## One call -/

section Step

variable {alloc : ℕ → UInt64} {phi : ℕ}

theorem phiStep_eq_some {s s' : PhiInst} {op : PhiOp} :
    phiStep alloc phi s op = some s' ↔ op.run alloc phi s = .ok s' := by
  rw [phiStep]
  cases op.run alloc phi s <;> simp [Except.toOption]

/-- An allowed call on a phi with pairs of uses: it fits exactly if it ends with the operands
mirrored, and then the phi has pairs of uses again. -/
theorem PhiInst.HasPairs.step (halloc : ∀ n, alloc n ≠ 0) {n : ℕ} {s : PhiInst}
    (h : s.HasPairs phi n) {op : PhiOp} (hop : op.Allowed s) :
    (op.Keeps alloc phi s ↔ op.Fits s) ∧
      ∀ s', phiStep alloc phi s op = some s' → ∃ n', s'.HasPairs phi n' := by
  cases op with
  | insertValue block value =>
    obtain ⟨found, hfind, hpos⟩ := h.findPair_ok block value
    have hcount := h.count
    cases found with
    | true =>
      have hrun : (PhiOp.insertValue block value).run alloc phi s = .ok s := by
        rw [PhiOp.run, PhiInst.instPhiInsertValue, hfind]
        rfl
      constructor
      · refine iff_of_true ⟨s, phiStep_eq_some.2 hrun, h.mirrors (hpos rfl)⟩ (.inl hfind)
      · intro s' hs'
        rw [phiStep_eq_some, hrun] at hs'
        exact ⟨n, Except.ok.inj hs' ▸ h⟩
    | false =>
      by_cases hn : n < 16
      · obtain ⟨s', hrun, hpairs⟩ := PhiInst.insertPair_spec halloc h hn block value hfind
        constructor
        · exact iff_of_true ⟨s', phiStep_eq_some.2 hrun, hpairs.mirrors (by omega)⟩
            (.inr (by omega))
        · intro t ht
          rw [phiStep_eq_some, PhiOp.run, hrun] at ht
          exact ⟨n + 1, Except.ok.inj ht ▸ hpairs⟩
      · have hrun : (PhiOp.insertValue block value).run alloc phi s = .error .overrun :=
          PhiInst.insertPair_overrun h hn block value hfind
        constructor
        · apply iff_of_false
          · rintro ⟨s', hs', -⟩
            rw [phiStep_eq_some, hrun] at hs'
            cases hs'
          · rw [PhiOp.Fits, hfind]
            simp
            omega
        · intro s' hs'
          rw [phiStep_eq_some, hrun] at hs'
          cases hs'
  | setUse useOffset value =>
    have hi : useOffset < 2 * n := h.count ▸ hop
    obtain ⟨s', hrun, hholds, huses, hcount, -, hfilled⟩ :=
      @PhiInst.instSetUse_spec alloc phi halloc s _ useOffset value h.holds
        (by have := h.le; omega) (h.uses (by omega)) hop hi
    have hpairs : s'.HasPairs phi n :=
      ⟨h.le, hholds, hcount.trans h.count, fun _ => huses, fun i hi => hfilled i (h.filled i hi)⟩
    constructor
    · exact iff_of_true ⟨s', phiStep_eq_some.2 hrun, hpairs.mirrors (by omega)⟩ trivial
    · intro t ht
      rw [phiStep_eq_some, PhiOp.run, hrun] at ht
      exact ⟨n, Except.ok.inj ht ▸ hpairs⟩

/-! ## A phi created with operands -/

/-- A buffer without room after one pointer. -/
theorem emptyBuffer_push : (dbufferStep (dbufferInitSize 0) (.pushPtr 0)).capacity = 0 ∧
    (dbufferStep (dbufferInitSize 0) (.pushPtr 0)).usage = 8 ∧
    (dbufferStep (dbufferInitSize 0) (.pushPtr 0)).room ≤ 8 := by
  rw [dbufferStep, dbufferPushPtr]
  refine ⟨?_, ?_, ?_⟩
  · rw [dbufferPushData_capacity, dbufferEnsureCap_capacity]
    rfl
  · rw [dbufferPushData_usage, dbufferEnsureCap_usage]
    show sizeAdd 0 8 = 8
    exact sizeAdd_of_lt (by omega)
  · rw [dbufferPushData_room]
    show (dbufferEnsureCap { dbufferInitSize 0 with writes := [] } 8).grownRoom 8 ≤ 8
    rw [Dbuffer.grownRoom_ensureCap, Dbuffer.grownRoom]
    split_ifs
    · show growthTarget 0 8 ≤ 8
      decide
    · show 0 ≤ 8
      omega

/-- A buffer without room takes one pointer and no second one. -/
theorem PhiInst.pushPtr_twice_stops {s first : PhiInst} (hbuffer : s.useBuffer = dbufferInitSize 0)
    (hfirst : s.pushPtr 0 = .ok first) : first.pushPtr 0 = .error .overrun := by
  have hok : (dbufferInitSize 0).Ok := dbufferInitSize_ok (by omega)
  rw [PhiInst.pushPtr, hbuffer] at hfirst
  by_cases hsafe : (DbufferOp.pushPtr 0).Safe (dbufferInitSize 0)
  · rw [if_pos hsafe] at hfirst
    have hfirst' : first.useBuffer = dbufferStep (dbufferInitSize 0) (.pushPtr 0) := by
      rw [← Except.ok.inj hfirst]
    have hok' := DbufferOp.ok_of_safe hok (.pushPtr 0) trivial hsafe
    rw [PhiInst.pushPtr, hfirst']
    apply if_neg
    rw [DbufferOp.safe_iff_fits hok' (.pushPtr 0) trivial]
    show ¬ (dbufferStep (dbufferInitSize 0) (.pushPtr 0)).Fits 8 8
    unfold Dbuffer.Fits
    rw [emptyBuffer_push.1, emptyBuffer_push.2.1, if_neg (by omega)]
    have := emptyBuffer_push.2.2
    omega
  · rw [if_neg hsafe] at hfirst
    cases hfirst

/-- No call gets through the pointer to the field, if the phi was created with operands. -/
theorem PhiInst.run_new_stops {cells : UInt64 → UseCell} {allocated valueCount : ℕ}
    (hcount : valueCount ≠ 0) {op : PhiOp}
    (hop : op.Allowed (PhiInst.instNewPhi cells allocated valueCount)) (s' : PhiInst) :
    op.run alloc phi (PhiInst.instNewPhi cells allocated valueCount) ≠ .ok s' := by
  have huses : (PhiInst.instNewPhi cells allocated valueCount).uses = .field := rfl
  have huseCount : (PhiInst.instNewPhi cells allocated valueCount).useCount
      = sizeMul valueCount 2 := rfl
  have hbuffer : (PhiInst.instNewPhi cells allocated valueCount).useBuffer
      = dbufferInitSize (sizeMul 8 (sizeMul (max valueCount 8) 2)) := rfl
  generalize PhiInst.instNewPhi cells allocated valueCount = s at hop huses huseCount hbuffer
  have hread : ∀ i, s.readUse i = .error .stalePointer := by
    intro i
    rw [PhiInst.readUse, if_neg (by rw [huses]; simp)]
  cases op with
  | setUse useOffset value =>
    have hi : useOffset < s.useCount := hop
    rw [PhiOp.run, PhiInst.instSetUse, if_pos hi, hread, error_bind]
    simp
  | insertValue block value =>
    rw [PhiOp.run, PhiInst.instPhiInsertValue]
    by_cases hzero : sizeMul valueCount 2 = 0
    · -- twice the operands are no `size_t`, and the buffer is created without room
      have hmax : max valueCount 8 = valueCount := by
        rw [sizeMul] at hzero
        omega
      rw [hmax, hzero] at hbuffer
      rw [huseCount, hzero, PhiInst.findPair, ok_bind, if_neg Bool.false_ne_true]
      cases hfirst : s.pushPtr 0 with
      | error e =>
        rw [error_bind]
        simp
      | ok first =>
        rw [ok_bind, PhiInst.pushPtr_twice_stops hbuffer hfirst, error_bind]
        simp
    · have hpairs : (s.useCount + 1) / 2 = ((s.useCount + 1) / 2 - 1) + 1 := by omega
      rw [hpairs, PhiInst.findPair, PhiInst.useValue, hread, error_bind, error_bind, error_bind]
      simp

end Step

/-! ## All calls -/

/-- **The operands of a phi are never mirrored directly after `inst_new_phi`**, whose pointer is
the address of the field `buffer`.  They are after every call that follows exactly if there is
none, or if the phi was created without operands and no call inserts a seventeenth pair. -/
theorem phi_mirrors_iff {alloc : ℕ → UInt64} (halloc : ∀ n, alloc n ≠ 0) (phi : ℕ)
    (cells : UInt64 → UseCell) (allocated valueCount : ℕ) (ops : List PhiOp)
    (hops : AllSteps (phiStep alloc phi) (fun s op => op.Allowed s)
      (PhiInst.instNewPhi cells allocated valueCount) ops) :
    ¬ Mirrors phi (PhiInst.instNewPhi cells allocated valueCount) ∧
      (AllSteps (phiStep alloc phi) (fun s op => op.Keeps alloc phi s)
          (PhiInst.instNewPhi cells allocated valueCount) ops ↔
        ops = [] ∨ valueCount = 0 ∧ AllSteps (phiStep alloc phi) (fun s op => op.Fits s)
          (PhiInst.instNewPhi cells allocated valueCount) ops) := by
  constructor
  · rintro ⟨huses, -⟩
    cases huses
  · cases ops with
    | nil => simp
    | cons op ops =>
      by_cases hcount : valueCount = 0
      · subst hcount
        have hiff := allSteps_iff_of_inv (I := fun s => ∃ n, s.HasPairs phi n)
          (fun s op hs hop => (hs.choose_spec.step halloc hop).1)
          (fun s op s' hs hop _ hs' => (hs.choose_spec.step halloc hop).2 s' hs')
          _ (op :: ops) ⟨0, PhiInst.hasPairs_new cells allocated⟩ hops
        rw [hiff]
        simp
      · apply iff_of_false
        · rintro ⟨⟨s', hs', -⟩, -⟩
          exact PhiInst.run_new_stops hcount hops.1 s' (phiStep_eq_some.1 hs')
        · simp [hcount]

/-- The addresses of uses that the zone of a context returns one after the other. -/
def useAddress (n : ℕ) : UInt64 :=
  UInt64.ofNat (4096 + 32 * (n % 1024))

theorem useAddress_ne_zero (n : ℕ) : useAddress n ≠ 0 := by
  intro h
  have hnat := congrArg UInt64.toNat h
  simp [useAddress] at hnat
  omega

/-- A phi as the conversion creates it, and one pair. -/
theorem phi_mirrors_pair :
    ¬ Mirrors 3 (PhiInst.instNewPhi (fun _ => ⟨0, 0⟩) 0 0) ∧
      AllSteps (phiStep useAddress 3) (fun s op => op.Keeps useAddress 3 s)
        (PhiInst.instNewPhi (fun _ => ⟨0, 0⟩) 0 0) [.insertValue 7 8] := by
  have hiff := phi_mirrors_iff useAddress_ne_zero 3 (fun _ => ⟨0, 0⟩) 0 0 [.insertValue 7 8]
    ⟨trivial, fun _ _ => trivial⟩
  exact ⟨hiff.1, hiff.2.2 (.inr ⟨rfl, .inr (by decide), fun _ _ => trivial⟩)⟩

/-- A phi created with one pair, whose first slot is set then. -/
theorem phi_not_mirrored :
    ¬ Mirrors 3 (PhiInst.instNewPhi (fun _ => ⟨0, 0⟩) 0 1) ∧
      ¬ (PhiOp.setUse 0 8).Keeps useAddress 3 (PhiInst.instNewPhi (fun _ => ⟨0, 0⟩) 0 1) := by
  constructor
  · rintro ⟨huses, -⟩
    cases huses
  · have hallowed : (PhiOp.setUse 0 8).Allowed (PhiInst.instNewPhi (fun _ => ⟨0, 0⟩) 0 1) := by
      show 0 < sizeMul 1 2
      decide
    rintro ⟨s', hs', -⟩
    exact PhiInst.run_new_stops (by omega) hallowed s' (phiStep_eq_some.1 hs')
