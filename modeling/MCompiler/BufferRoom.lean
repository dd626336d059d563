/-
# How much a buffer holds

A buffer that is never popped grows once.  `pushRoom` is the size of its block at the end of
a sequence of pushes: the first one, or what the push asks for that passes its end.

* `pushesStored_iff` : the pushes are stored inside the block exactly if the bytes fit in it;
* `pushesStored_iff_of_small` : pushes of at most half the first block fit exactly if they
  have at most twice its size.
-/
import Mathlib.Algebra.Order.Ring.Nat
import MCompiler.Buffer

open Runs

/-! ## Pushes of data -/

/-- The pushes are stored inside the block of a buffer that first has `size` bytes.
`dbuffer_pushChar` and `dbuffer_pushStr` push the data of a byte and of a string. -/
def PushesStored (size : ℕ) (pushes : List (List UInt8)) : Prop :=
  EveryStep dbufferStep (fun d op => op.Safe d) (dbufferInitSize size)
    (pushes.map DbufferOp.pushData)

/-- The size of the block after pushes of these lengths, when `used` bytes of the first one
are in use before them. -/
def pushRoom (capacity : ℕ) : ℕ → List ℕ → ℕ
  | _, [] => capacity
  | used, n :: ns =>
      if used + n ≤ capacity then pushRoom capacity (used + n) ns else growthTarget capacity n

section Pushes

variable {d : Dbuffer} (h : d.Ok) {data : List UInt8}
include h

theorem pushData_safe_iff : (DbufferOp.pushData data).Safe d ↔ d.Fits data.length data.length := by
  have hok : ({ d with writes := [] } : Dbuffer).Ok := ⟨h.usage_le, h.room_lt, h.capacity_lt⟩
  have hgood : (dbufferStep d (.pushData data)).Good ↔ d.Fits data.length data.length :=
    (dbufferPushData_good_iff hok data).trans (and_iff_right nofun)
  exact ⟨fun hsafe => hgood.mp hsafe.2, fun hfits =>
    ⟨(dbufferPushData_ok_of_good hok data (hgood.mpr hfits)).usage_le, hgood.mpr hfits⟩⟩

theorem pushData_ok (hfits : d.Fits data.length data.length) :
    (dbufferStep d (.pushData data)).Ok := by
  have hok : ({ d with writes := [] } : Dbuffer).Ok := ⟨h.usage_le, h.room_lt, h.capacity_lt⟩
  exact dbufferPushData_ok_of_good hok data ((pushData_safe_iff h).mpr hfits).2

/-- A push that fits adds its bytes. -/
theorem usage_pushData (hfits : d.Fits data.length data.length) :
    (dbufferStep d (.pushData data)).usage = d.usage + data.length := by
  have hroom := (h.room_iff_fits data.length).mpr hfits
  have hlt := h.grownRoom_lt data.length
  have husage : (dbufferStep d (.pushData data)).usage = sizeAdd d.usage data.length :=
    dbufferPushData_usage _ data
  rw [husage, sizeAdd_of_lt (by omega)]

omit h in
theorem capacity_pushData (d : Dbuffer) (data : List UInt8) :
    (dbufferStep d (.pushData data)).capacity = d.capacity :=
  dbufferPushData_capacity _ data

omit h in
theorem room_pushData (d : Dbuffer) (data : List UInt8) :
    (dbufferStep d (.pushData data)).room = d.grownRoom data.length :=
  dbufferPushData_room _ data

end Pushes

/-- Once the capacity is passed the block stays. -/
theorem pushes_safe_of_passed (pushes : List (List UInt8)) (d : Dbuffer) (h : d.Ok)
    (hpassed : d.capacity < d.usage) :
    EveryStep dbufferStep (fun d op => op.Safe d) d (pushes.map DbufferOp.pushData) ↔
      d.usage + (pushes.map List.length).sum ≤ d.room := by
  induction pushes generalizing d with
  | nil => exact iff_of_true trivial h.usage_le
  | cons data pushes ih =>
      have hfits : d.Fits data.length data.length ↔ d.usage + data.length ≤ d.room := by
        unfold Dbuffer.Fits
        rw [if_neg (by omega)]
      rw [List.map_cons, everyStep_cons, pushData_safe_iff h, List.map_cons, List.sum_cons]
      by_cases hroom : d.usage + data.length ≤ d.room
      · have hkept : ¬ d.Grows data.length := by
          have hlt := h.room_lt
          rw [h.grows_iff]
          omega
        have husage := usage_pushData h (hfits.mpr hroom)
        rw [ih _ (pushData_ok h (hfits.mpr hroom)) (by rw [capacity_pushData, husage]; omega),
          husage, room_pushData, Dbuffer.grownRoom, if_neg hkept, hfits]
        omega
      · rw [hfits]
        omega

/-- **The pushes into a buffer** whose first block is not yet full. -/
theorem pushes_safe_iff (pushes : List (List UInt8)) (d : Dbuffer) (h : d.Ok)
    (hused : d.usage ≤ d.capacity) (hroom : d.capacity ≤ d.room) :
    EveryStep dbufferStep (fun d op => op.Safe d) d (pushes.map DbufferOp.pushData) ↔
      d.usage + (pushes.map List.length).sum ≤
        pushRoom d.capacity d.usage (pushes.map List.length) := by
  induction pushes generalizing d with
  | nil => exact iff_of_true trivial hused
  | cons data pushes ih =>
      rw [List.map_cons, everyStep_cons, pushData_safe_iff h, List.map_cons, List.sum_cons,
        pushRoom]
      by_cases hlow : d.usage + data.length ≤ d.capacity
      · have hfits : d.Fits data.length data.length := by
          unfold Dbuffer.Fits
          rw [if_neg (by omega)]
          omega
        have hkept : ¬ d.Grows data.length := by
          have hlt := h.capacity_lt
          rw [h.grows_iff]
          omega
        have hroom' : (dbufferStep d (.pushData data)).capacity ≤
            (dbufferStep d (.pushData data)).room := by
          rw [room_pushData, capacity_pushData, Dbuffer.grownRoom, if_neg hkept]
          exact hroom
        have husage := usage_pushData h hfits
        rw [if_pos hlow, ih _ (pushData_ok h hfits)
          (by rw [husage, capacity_pushData]; exact hlow) hroom', husage, capacity_pushData]
        have hassoc := Nat.add_assoc d.usage data.length (pushes.map List.length).sum
        rw [hassoc]
        exact and_iff_right hfits
      · -- the push passes the end of the first block
        have hfits : d.Fits data.length data.length ↔
            d.usage + data.length ≤ growthTarget d.capacity data.length := by
          unfold Dbuffer.Fits
          rw [if_pos ⟨by omega, by omega⟩]
          simp
        have hgrows : d.Grows data.length := (h.grows_iff _).mpr (.inl ⟨by omega, by omega⟩)
        rw [if_neg hlow, hfits]
        by_cases htarget : d.usage + data.length ≤ growthTarget d.capacity data.length
        · have husage := usage_pushData h (hfits.mpr htarget)
          rw [pushes_safe_of_passed _ _ (pushData_ok h (hfits.mpr htarget))
            (by rw [capacity_pushData, husage]; omega), husage, room_pushData, Dbuffer.grownRoom,
            if_pos hgrows]
          omega
        · omega

/-- **A buffer stores pushes exactly if the bytes fit in the block it grows to.** -/
theorem pushesStored_iff {size : ℕ} (hsize : size < 2 ^ 64) {pushes : List (List UInt8)} :
    PushesStored size pushes ↔
      (pushes.map List.length).sum ≤ pushRoom size 0 (pushes.map List.length) := by
  have hiff := pushes_safe_iff pushes _ (dbufferInitSize_ok hsize) (Nat.zero_le _) (Nat.le_refl _)
  have hzero : (dbufferInitSize size).usage = 0 := rfl
  rw [hzero, Nat.zero_add] at hiff
  exact hiff

/-- Small pushes make the buffer grow to twice its size. -/
theorem le_pushRoom_iff_of_small {capacity : ℕ} (hlt : 4 * capacity < 2 ^ 64) (ns : List ℕ)
    (hsmall : ∀ n ∈ ns, 2 * n ≤ capacity) (used : ℕ) (hused : used ≤ capacity) :
    used + ns.sum ≤ pushRoom capacity used ns ↔ used + ns.sum ≤ 2 * capacity := by
  induction ns generalizing used with
  | nil =>
      rw [pushRoom, List.sum_nil]
      omega
  | cons n ns ih =>
      obtain ⟨hn, hrest⟩ := List.forall_mem_cons.mp hsmall
      rw [pushRoom, List.sum_cons]
      by_cases hlow : used + n ≤ capacity
      · rw [if_pos hlow, ← Nat.add_assoc]
        exact ih hrest (used + n) hlow
      · have htarget : growthTarget capacity n = 2 * capacity := by
          unfold growthTarget sizeMul
          rw [Nat.mod_eq_of_lt (by omega), Nat.mod_eq_of_lt (by omega), sizeAdd_of_lt (by omega)]
          omega
        rw [if_neg hlow, htarget]

/-- **Small pushes are stored exactly if they have at most twice the size of the first
block.** -/
theorem pushesStored_iff_of_small {size : ℕ} (hlt : 4 * size < 2 ^ 64)
    {pushes : List (List UInt8)} (hsmall : ∀ data ∈ pushes, 2 * data.length ≤ size) :
    PushesStored size pushes ↔ (pushes.map List.length).sum ≤ 2 * size := by
  have hlengths : ∀ n ∈ pushes.map List.length, 2 * n ≤ size := List.forall_mem_map.mpr hsmall
  rw [pushesStored_iff (by omega)]
  have hiff := le_pushRoom_iff_of_small hlt _ hlengths 0 (Nat.zero_le size)
  rwa [Nat.zero_add] at hiff
