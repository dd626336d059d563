/-
# Text in a buffer

Text is written to a buffer by pushes: of strings, of ranges, of single characters and of
numbers, whose digits are pushed one by one and put into the right order.  What the buffer
contains then depends on the bytes; whether all of them are stored inside its blocks depends on
the lengths of the pushes alone.

* `Written` : from one buffer to another the bytes of some pushes have been written;
* `Written.good_iff` : they are stored inside the blocks exactly if they fit.
-/
import MCompiler.BufferContents
import MCompiler.BufferRoom

open Runs

/-! ## Buffers of the same size -/

namespace Dbuffer

instance (d : Dbuffer) : Decidable d.Good :=
  inferInstanceAs (Decidable (∀ w ∈ d.writes, w.InBounds))

/-- Two buffers with blocks of the same size that are filled alike, and of which both have
stored everything inside their blocks or none has. -/
structure Alike (d e : Dbuffer) : Prop where
  room : d.room = e.room
  capacity : d.capacity = e.capacity
  usage : d.usage = e.usage
  good : d.Good ↔ e.Good

variable {d e f : Dbuffer}

theorem Alike.refl (d : Dbuffer) : d.Alike d := ⟨rfl, rfl, rfl, Iff.rfl⟩

theorem Alike.trans (h : d.Alike e) (h' : e.Alike f) : d.Alike f :=
  ⟨h.room.trans h'.room, h.capacity.trans h'.capacity, h.usage.trans h'.usage,
    h.good.trans h'.good⟩

theorem Alike.ok (h : d.Alike e) (hok : e.Ok) : d.Ok :=
  ⟨by rw [h.usage, h.room]; exact hok.usage_le, by rw [h.room]; exact hok.room_lt,
    by rw [h.capacity]; exact hok.capacity_lt⟩

/-- The log of a push. -/
theorem good_pushData (d : Dbuffer) (data : List UInt8) :
    (dbufferPushData d data).Good ↔
      d.Good ∧ d.usage + data.length ≤ d.grownRoom data.length := by
  unfold Good
  rw [dbufferPushData_writes, List.append_assoc, List.forall_mem_append, push_writes_iff]

/-- The block after a request only depends on the sizes. -/
theorem grownRoom_eq (hroom : d.room = e.room) (hcapacity : d.capacity = e.capacity)
    (husage : d.usage = e.usage) (size : ℕ) : d.grownRoom size = e.grownRoom size := by
  have hgrows : d.Grows size ↔ e.Grows size := by
    unfold Grows
    rw [hcapacity, husage]
  unfold grownRoom
  by_cases h : e.Grows size
  · rw [if_pos h, if_pos (hgrows.mpr h), hcapacity]
  · rw [if_neg h, if_neg (hgrows.not.mpr h), hroom]

/-- **A push** only depends on the length of the data. -/
theorem Alike.pushData (h : d.Alike e) {data data' : List UInt8}
    (hlength : data.length = data'.length) :
    (dbufferPushData d data).Alike (dbufferPushData e data') := by
  have hgrown : d.grownRoom data.length = e.grownRoom data'.length := by
    rw [grownRoom_eq h.room h.capacity h.usage, hlength]
  refine ⟨?_, ?_, ?_, ?_⟩
  · rw [dbufferPushData_room, dbufferPushData_room, hgrown]
  · rw [dbufferPushData_capacity, dbufferPushData_capacity, h.capacity]
  · rw [dbufferPushData_usage, dbufferPushData_usage, h.usage, hlength]
  · rw [good_pushData, good_pushData, h.good, h.usage, hgrown, hlength]

theorem Alike.pushes {pushes pushes' : List (List UInt8)} (h : d.Alike e)
    (hlengths : pushes.map List.length = pushes'.map List.length) :
    (pushes.foldl dbufferPushData d).Alike (pushes'.foldl dbufferPushData e) := by
  induction pushes generalizing d e pushes' with
  | nil =>
      obtain rfl := List.map_eq_nil_iff.mp hlengths.symm
      exact h
  | cons data pushes ih =>
      obtain ⟨data', rest, rfl, hdata, hrest⟩ := List.map_eq_cons_iff.mp hlengths.symm
      rw [List.foldl_cons, List.foldl_cons]
      exact ih (h.pushData hdata.symm) hrest.symm

/-- What has been stored outside a block stays in the log. -/
theorem good_of_pushes {pushes : List (List UInt8)}
    (h : (pushes.foldl dbufferPushData d).Good) : d.Good := by
  induction pushes generalizing d with
  | nil => exact h
  | cons data pushes ih => exact ((good_pushData d data).mp (ih h)).1

/-- Pushes that are stored inside the blocks keep the invariant and add their bytes. -/
theorem Ok.pushes (hok : d.Ok) {pushes : List (List UInt8)}
    (hgood : (pushes.foldl dbufferPushData d).Good) :
    (pushes.foldl dbufferPushData d).Ok ∧
      (pushes.foldl dbufferPushData d).usage = d.usage + pushes.flatten.length := by
  induction pushes generalizing d with
  | nil => exact ⟨hok, rfl⟩
  | cons data pushes ih =>
      have hfirst := good_of_pushes (d := dbufferPushData d data) hgood
      have hroom := ((good_pushData d data).mp hfirst).2
      have hlt := hok.grownRoom_lt data.length
      obtain ⟨hok', husage⟩ := ih (dbufferPushData_ok_of_good hok data hfirst) hgood
      refine ⟨hok', husage.trans ?_⟩
      rw [dbufferPushData_usage, sizeAdd_of_lt (by omega), List.flatten_cons, List.length_append,
        Nat.add_assoc]

/-- Pushes keep the capacity, and the block does not get smaller than it. -/
theorem capacity_pushes (d : Dbuffer) (hcapacity : d.capacity = 1000) (hroom : 1000 ≤ d.room)
    (pushes : List (List UInt8)) : (pushes.foldl dbufferPushData d).capacity = 1000 ∧
      1000 ≤ (pushes.foldl dbufferPushData d).room := by
  induction pushes generalizing d with
  | nil => exact ⟨hcapacity, hroom⟩
  | cons data pushes ih =>
      refine ih _ (by rw [dbufferPushData_capacity, hcapacity]) ?_
      rw [dbufferPushData_room]
      unfold grownRoom
      split
      · have htwice : sizeMul 1000 2 ≤ growthTarget 1000 data.length := Nat.le_max_left _ _
        rw [hcapacity]
        exact le_trans (by decide) htwice
      · exact hroom

theorem usage_step (d : Dbuffer) (data : List UInt8) :
    (dbufferStep d (.pushData data)).usage = sizeAdd d.usage data.length :=
  dbufferPushData_usage _ data

/-- The log of several pushes, and the steps of the buffer. -/
theorem Ok.good_pushes_iff (hok : e.Ok) (hroom : d.room = e.room)
    (hcapacity : d.capacity = e.capacity) (husage : d.usage = e.usage)
    (pushes : List (List UInt8)) :
    (pushes.foldl dbufferPushData d).Good ↔ d.Good ∧
      EveryStep dbufferStep (fun d op => op.Safe d) e (pushes.map DbufferOp.pushData) := by
  induction pushes generalizing d e with
  | nil => exact (and_iff_left trivial).symm
  | cons data pushes ih =>
      have hgrown := grownRoom_eq hroom hcapacity husage data.length
      rw [List.map_cons, everyStep_cons, pushData_safe_iff hok, List.foldl_cons]
      by_cases hfits : e.Fits data.length data.length
      · rw [ih (pushData_ok hok hfits)
          (by rw [dbufferPushData_room, room_pushData, hgrown])
          (by rw [dbufferPushData_capacity, capacity_pushData, hcapacity])
          (by rw [dbufferPushData_usage, husage, usage_step]),
          good_pushData, hgrown, husage, hok.room_iff_fits]
        exact and_assoc
      · refine iff_of_false (fun hgood => hfits ?_) fun h => hfits h.2.1
        have hfirst := (good_pushData d data).mp (good_of_pushes hgood)
        rw [hgrown, husage] at hfirst
        exact (hok.room_iff_fits _).mp hfirst.2

end Dbuffer

/-! ## Room for a text -/

/-- Pushes of these lengths fit in a buffer of `dbuffer_init`: they do not pass the end of the
block that it grows to. -/
def FitsBuffer (lengths : List ℕ) : Prop := lengths.sum ≤ pushRoom 1000 0 lengths

instance : DecidablePred FitsBuffer := fun _ => inferInstanceAs (Decidable (_ ≤ _))

/-- Short pushes fit if they are not more than 2000 bytes. -/
theorem fitsBuffer_iff_of_small {lengths : List ℕ} (hsmall : ∀ n ∈ lengths, n ≤ 500) :
    FitsBuffer lengths ↔ lengths.sum ≤ 2000 := by
  have hhalf : ∀ n ∈ lengths, 2 * n ≤ 1000 := fun n hn => Nat.mul_le_mul_left 2 (hsmall n hn)
  have hiff := le_pushRoom_iff_of_small (by decide) lengths hhalf 0 (Nat.zero_le _)
  rw [Nat.zero_add] at hiff
  exact hiff

/-- An empty buffer that had room for 1000 bytes at first. -/
structure Dbuffer.Empty (d : Dbuffer) : Prop where
  ok : d.Ok
  good : d.Good
  usage : d.usage = 0
  capacity : d.capacity = 1000
  room : 1000 ≤ d.room

theorem dbufferInit_empty : (dbufferInitSize 1000).Empty :=
  ⟨dbufferInitSize_ok (by decide), nofun, rfl, rfl, Nat.le_refl _⟩

theorem Dbuffer.Empty.good_pushes_iff {d : Dbuffer} (h : d.Empty) (pushes : List (List UInt8)) :
    (pushes.foldl dbufferPushData d).Good ↔ FitsBuffer (pushes.map List.length) := by
  have hsafe := pushes_safe_iff pushes d h.ok (by rw [h.usage]; exact Nat.zero_le _)
    (by rw [h.capacity]; exact h.room)
  rw [h.usage, h.capacity, Nat.zero_add] at hsafe
  rw [h.ok.good_pushes_iff rfl rfl rfl, and_iff_right h.good, hsafe]
  rfl

/-! ## Writing -/

namespace LoggedBuffer

/-- From `b` to `b'` the bytes of the pushes have been written. -/
structure Written (b b' : LoggedBuffer) (pushes : List (List UInt8)) : Prop where
  appends : b.d.usage + pushes.flatten.length < 2 ^ 64 → Appends b b' pushes.flatten
  alike : (b.d.Good → b.d.Ok) → b'.d.Alike (pushes.foldl dbufferPushData b.d)

section Written

variable {b b' b'' : LoggedBuffer} {pushes pushes' : List (List UInt8)}

theorem Written.refl (b : LoggedBuffer) : Written b b [] :=
  ⟨fun _ => .refl b, fun _ => .refl _⟩

theorem Written.trans (h : Written b b' pushes) (h' : Written b' b'' pushes') :
    Written b b'' (pushes ++ pushes') := by
  refine ⟨fun hfits => ?_, fun hok => ?_⟩
  · rw [List.flatten_append, List.length_append] at hfits
    have happends := h.appends (by omega)
    rw [List.flatten_append]
    exact happends.trans (h'.appends (by rw [happends.usage]; omega))
  · have halike := h.alike hok
    refine (h'.alike fun hgood => ?_).trans ?_
    · have hgood' := halike.good.mp hgood
      exact halike.ok ((hok (Dbuffer.good_of_pushes hgood')).pushes hgood').1
    · rw [List.foldl_append]
      exact halike.pushes rfl

/-- A push. -/
theorem written_pushData (b : LoggedBuffer) (data : List UInt8) :
    Written b (b.pushData data) [data] := by
  refine ⟨fun hfits => ?_, fun _ => .refl _⟩
  rw [List.flatten_singleton] at hfits ⊢
  exact b.pushData_appends data hfits

theorem written_pushChars (b : LoggedBuffer) (c : UInt8) (size : ℕ) :
    Written b (b.pushChars c size) [List.replicate size c] := by
  rw [pushChars_eq]
  exact written_pushData b _

/-- **What has been written** is stored inside the blocks exactly if it fits. -/
theorem Written.good_iff (h : Written b b' pushes) (hempty : b.d.Empty) :
    b'.d.Good ↔ FitsBuffer (pushes.map List.length) :=
  (h.alike fun _ => hempty.ok).good.trans (hempty.good_pushes_iff pushes)

/-- The contents afterwards. -/
theorem Written.contents (h : Written b b' pushes) (hempty : b.d.Empty) (hgood : b'.d.Good) :
    b'.d.contents = pushes.flatten := by
  have halike := h.alike fun _ => hempty.ok
  obtain ⟨hok, husage⟩ := hempty.ok.pushes (halike.good.mp hgood)
  have hlt := hok.usage_lt
  rw [husage] at hlt
  have hnil : b.d.contents = [] := by
    unfold Dbuffer.contents
    rw [hempty.usage]
    rfl
  rw [(h.appends hlt).contents, hnil, List.nil_append]

/-- The buffer that is left when it is cleared. -/
theorem Written.clear (h : Written b b' pushes) (hempty : b.d.Empty) (hgood : b'.d.Good) :
    b'.clear.d.Empty := by
  have halike := h.alike fun _ => hempty.ok
  obtain ⟨hok, -⟩ := hempty.ok.pushes (halike.good.mp hgood)
  have hok' := halike.ok hok
  obtain ⟨hcapacity, hroom⟩ := b.d.capacity_pushes hempty.capacity hempty.room pushes
  exact ⟨⟨Nat.zero_le _, hok'.room_lt, hok'.capacity_lt⟩, hgood, rfl,
    halike.capacity.trans hcapacity, by rw [← halike.room] at hroom; exact hroom⟩

end Written

/-! ## Numbers -/

/-- The pushes of single characters. -/
def chars (data : List UInt8) : List (List UInt8) := data.map ([·])

theorem flatten_chars (data : List UInt8) : (chars data).flatten = data := by
  induction data with
  | nil => rfl
  | cons c data ih => exact congrArg (c :: ·) ih

theorem lengths_chars (data : List UInt8) :
    (chars data).map List.length = List.replicate data.length 1 := by
  rw [chars, List.map_map]
  exact List.map_const'

/-- The digits are pushed in the reverse order. -/
theorem pushDigits_eq (number : ℕ) (b : LoggedBuffer) (size : ℕ) :
    (b.pushDigits number size).1.d =
        (chars (decimalBytes number).reverse).foldl dbufferPushData b.d ∧
      (b.pushDigits number size).2 = size + (decimalBytes number).length := by
  induction number using Nat.strong_induction_on generalizing b size with
  | h number ih =>
      unfold pushDigits
      dsimp only
      by_cases hlast : number / 10 = 0
      · have hsmall : number < 10 := by omega
        have hdigits : decimalBytes number = [UInt8.ofNat (48 + number)] := by
          rw [decimalBytes, if_pos hsmall]
        rw [if_pos hlast, hdigits, Nat.mod_eq_of_lt hsmall]
        exact ⟨rfl, rfl⟩
      · have hlarge : ¬ number < 10 := by omega
        have hdigits : decimalBytes number =
            decimalBytes (number / 10) ++ [UInt8.ofNat (48 + number % 10)] := by
          rw [decimalBytes, if_neg hlarge]
        obtain ⟨hrest, hcount⟩ := ih (number / 10) (by omega)
          (b.pushChar (UInt8.ofNat (48 + number % 10))) (size + 1)
        rw [if_neg hlast, hdigits, List.reverse_append, List.length_append, List.length_singleton,
          hrest, hcount]
        exact ⟨rfl, by omega⟩

/-- The exchanges stay in the bytes that they are about. -/
theorem swapLoop_alike (b : LoggedBuffer) (start size count : ℕ) (hcount : 2 * count ≤ size)
    (hroom : b.d.Good → start + size ≤ b.d.room) :
    (b.swapLoop start size count).d.Alike b.d := by
  induction count with
  | zero => exact .refl _
  | succ count ih =>
      have hrest := ih (by omega)
      have hstep : (b.swapLoop start size (count + 1)).d =
          (b.swapLoop start size count).d.swap (start + count) (start + size - count - 1) := by
        unfold swapLoop
        rw [List.range_succ, List.foldl_append]
        rfl
      rw [hstep]
      refine ⟨hrest.room, hrest.capacity, hrest.usage, ?_⟩
      rw [← hrest.good]
      constructor
      · exact fun hgood w hw => hgood w (List.mem_append_left _ hw)
      · intro hgood w hw
        rcases List.mem_append.mp hw with hw | hw
        · exact hgood w hw
        · have hin := hroom (hrest.good.mp hgood)
          rw [← hrest.room] at hin
          simp only [List.mem_cons, List.not_mem_nil, or_false] at hw
          rcases hw with rfl | rfl
          · show start + count + 1 ≤ (b.swapLoop start size count).d.room
            omega
          · show start + size - count - 1 + 1 ≤ (b.swapLoop start size count).d.room
            omega

/-- **A number** is written as its digits. -/
theorem written_pushUIntStr (b : LoggedBuffer) (number : UInt32) :
    Written b (b.pushUIntStr number) (chars (decimalBytes number.toNat)) := by
  refine ⟨fun hfits => ?_, fun hok => ?_⟩
  · rw [flatten_chars] at hfits ⊢
    exact b.pushUIntStr_appends number hfits
  · obtain ⟨hdigits, hsize⟩ := b.pushDigits_eq number.toNat 0
    unfold pushUIntStr
    generalize b.pushDigits number.toNat 0 = result at hdigits hsize
    obtain ⟨b', size⟩ := result
    dsimp only at hdigits hsize ⊢
    rw [Nat.zero_add] at hsize
    have hlengths : (chars (decimalBytes number.toNat).reverse).map List.length =
        (chars (decimalBytes number.toNat)).map List.length := by
      rw [lengths_chars, lengths_chars, List.length_reverse]
    refine (b'.swapLoop_alike _ size (size / 2) (by omega) fun hgood => ?_).trans ?_
    · -- the digits are in use, and the bytes in use are in the block
      rw [hdigits] at hgood
      obtain ⟨hok', husage⟩ := (hok (Dbuffer.good_of_pushes hgood)).pushes hgood
      rw [← hdigits] at hok' husage
      rw [flatten_chars, List.length_reverse, ← hsize] at husage
      have hle := hok'.usage_le
      rw [sizeSub_of_le hok'.usage_lt (by omega)]
      omega
    · rw [hdigits]
      exact (Dbuffer.Alike.refl b.d).pushes hlengths

theorem written_pushIntStr (b : LoggedBuffer) (number : Int32) :
    Written b (b.pushIntStr number) (chars (if number < 0 then
      45 :: decimalBytes number.toInt.natAbs else decimalBytes number.toInt.natAbs)) := by
  unfold pushIntStr
  by_cases hneg : number < 0
  · rw [if_pos hneg, if_pos hneg, ← toNat_neg_of_neg number hneg]
    exact (written_pushData b [45]).trans (written_pushUIntStr (b.pushChar 45) _)
  · rw [if_neg hneg, if_neg hneg, ← toNat_of_nonneg number hneg]
    exact written_pushUIntStr b _

end LoggedBuffer
