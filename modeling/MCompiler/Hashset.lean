/-
# The hash set (`hashmap.c`)

A hash set is a hash map whose entry objects are cut off a zone of its own; removing a key
does not give its entry back.  `ZonedMap` is the invariant of a hash map with such entries:
the entries stored are the places of different regions of the zone, so that no entry is the
null pointer and none is stored under two keys.  The number of buckets is `100 * 2 ^ j`, and
the first rehash that loses the entries is the one of `100 * 2 ^ 25` buckets, the first count
that is negative as an `int`.

* `hashset_answers_iff` : in a run of calls the hash set answers as a finite set after every
  call exactly if there are never `80 * 2 ^ 25` elements.
-/
import MCompiler.HashmapRefinement
import MCompiler.ZoneAllocation

open Runs

/-! ## The data type -/

/-- Where the `struct hm_bucket_entry` stands in the object that it is part of. -/
structure EntryLayout where
  size : ℕ
  offset : ℕ

/-- `struct hm_bucket_entry` itself. -/
def bucketEntryLayout : EntryLayout := ⟨48, 0⟩

/-- `hashset_t`. -/
structure Hashset (K : Type) where
  hashmap : Hashmap K
  zone : ZoneAllocator

section Operations

variable {K : Type}

-- the block that each call of `dmalloc` returns
variable (base : ℕ → ℕ)

/-- `znnew` of an object, and the address of the entry in it. -/
def znnewEntry (layout : EntryLayout) (zone : ZoneAllocator) : Option (ZoneAllocator × UInt64) :=
  (zoneAllocRegion base zone layout.size).map fun result =>
    (result.1, UInt64.ofNat (result.2.ptr + layout.offset))

/-- `hashset_init`; `hashmap_init` makes 100 buckets. -/
def hashsetInit (keys : UInt64 → HmKey K) (next : ℕ → ℕ) (obtained : ℕ) : Hashset K :=
  ⟨hashmapInits 100 keys, zoneInit base next obtained⟩

variable (keyType : HmKeyType K)

/-- The insertion of a key, and whether it is new. -/
def hashsetInsert (hs : Hashset K) (key : K) : Option (Hashset K × Bool) :=
  match hashmapGet keyType hs.hashmap (hmKeyInit keyType key) with
  | some _ => some (hs, false)
  | none => (znnewEntry base bucketEntryLayout hs.zone).map fun result =>
      (⟨hashmapSet keyType hs.hashmap (hmKeyInit keyType key) result.2, result.1⟩, true)

/-- Whether a key is in the set. -/
def hashsetExists (hs : Hashset K) (key : K) : Bool :=
  (hashmapGet keyType hs.hashmap (hmKeyInit keyType key)).isSome

/-- `hashset_remove`; the caller has initialised the key with its hash. -/
def hashsetRemove (hs : Hashset K) (key : HmKey K) : Hashset K :=
  { hs with hashmap := hashmapRemove keyType hs.hashmap key }

end Operations

/-- `hashset_insertPtr`. -/
def hashsetInsertPtr (base : ℕ → ℕ) := hashsetInsert base ptrKeyType

/-- `hashset_existsPtr`. -/
def hashsetExistsPtr := hashsetExists ptrKeyType

/-- `hashset_insertInt`. -/
def hashsetInsertInt (base : ℕ → ℕ) := hashsetInsert base intKeyType

/-- `hashset_existsInt`. -/
def hashsetExistsInt := hashsetExists intKeyType

/-! ## Runs of calls -/

/-- A call. -/
inductive HashsetOp (K : Type) where
  | insert (key : K)
  | exists (key : K)
  | remove (key : K)

/-- A hash set, and what the calls so far have returned. -/
structure HashsetRun (K : Type) where
  hs : Hashset K
  answers : List Bool

/-- A finite set, and what the calls so far have to return. -/
structure SetRun (K : Type) where
  elements : Finset K
  answers : List Bool

section Runs

variable {K : Type} [DecidableEq K] (base : ℕ → ℕ) (keyType : HmKeyType K)

/-- A call of the hash set. -/
def hashsetStep (s : HashsetRun K) : HashsetOp K → Option (HashsetRun K)
  | .insert key =>
      (hashsetInsert base keyType s.hs key).map fun result =>
        ⟨result.1, s.answers ++ [result.2]⟩
  | .exists key => some ⟨s.hs, s.answers ++ [hashsetExists keyType s.hs key]⟩
  | .remove key => some ⟨hashsetRemove keyType s.hs (hmKeyInit keyType key), s.answers⟩

/-- A call of the finite set. -/
def setStep (s : SetRun K) : HashsetOp K → SetRun K
  | .insert key => ⟨insert key s.elements, s.answers ++ [decide (key ∉ s.elements)]⟩
  | .exists key => ⟨s.elements, s.answers ++ [decide (key ∈ s.elements)]⟩
  | .remove key => ⟨s.elements.erase key, s.answers⟩

/-- The finite set after calls. -/
def setAfter (ops : List (HashsetOp K)) : SetRun K := ops.foldl setStep ⟨∅, []⟩

/-- After the calls the hash set has returned what the finite set returns, and has the same
elements. -/
def AnswersAsSet (hs : Hashset K) (ops : List (HashsetOp K)) : Prop :=
  ∃ s, run (hashsetStep base keyType) ⟨hs, []⟩ ops = some s ∧
    s.answers = (setAfter ops).answers ∧
    ∀ key, hashsetExists keyType s.hs key = decide (key ∈ (setAfter ops).elements)

end Runs

/-! ## Regions of one size -/

section Zones

variable {base : ℕ → ℕ} {first last size : ℕ} {s : ZoneSession}

/-- All regions have the size `size`, and every zone but the last one is filled with them. -/
structure ZonesFilled (size first last : ℕ) (s : ZoneSession) : Prop where
  sizes : ∀ r ∈ s.regions, r.size = size
  filled : ∃ j, s.regions.length = maxZoneAllocation / size * (last - first) + j ∧
    s.alloc.remaining + size * j = maxZoneAllocation

theorem zonesFilled_newZone (size : ℕ) (next : ℕ → ℕ) (obtained : ℕ) :
    ZonesFilled size obtained obtained ⟨zoneInit base next obtained, []⟩ where
  sizes r hr := by cases hr
  filled := ⟨0, by simp, rfl⟩

/-- With this many regions there are this many zones. -/
theorem ZonesFilled.zones_le (h : ZonesFilled size first last s) :
    (last - first) * (maxZoneAllocation / size) ≤ s.regions.length := by
  obtain ⟨j, hlength, -⟩ := h.filled
  rw [hlength, Nat.mul_comm]
  exact Nat.le_add_right _ _

/-- **One more region of the size.** -/
theorem ZoneInv.allocRegion (hfresh : FreshBlocks base) (hsize : size ≤ maxZoneAllocation)
    (h : ZoneInv base first last s) (hfilled : ZonesFilled size first last s) :
    ∃ last' alloc region, zoneAllocRegion base s.alloc size = some (alloc, region) ∧
      region.size = size ∧ ZoneInv base first last' ⟨alloc, s.regions ++ [region]⟩ ∧
      ZonesFilled size first last' ⟨alloc, s.regions ++ [region]⟩ := by
  obtain ⟨j, hlength, hremaining⟩ := hfilled.filled
  have hsizes : ∀ ptr, ∀ r ∈ s.regions ++ [⟨ptr, size⟩], r.size = size := by
    intro ptr r hr
    rcases List.mem_append.mp hr with hr | hr
    · exact hfilled.sizes r hr
    · rw [List.mem_singleton.mp hr]
  unfold zoneAllocRegion
  rw [if_pos hsize]
  by_cases hfull : size > s.alloc.remaining
  · -- the zone holds as many regions as it can
    have hj : j = maxZoneAllocation / size := by
      refine (Nat.div_eq_of_lt_le ?_ ?_).symm
      · rw [Nat.mul_comm]
        omega
      · rw [Nat.mul_comm, Nat.mul_add]
        omega
    have hle := h.le
    have hnew := (h.newZone hfresh).cut hfresh hsize
    rw [if_pos hfull]
    refine ⟨last + 1, _, _, rfl, rfl, hnew, hsizes _, 1, ?_, ?_⟩
    · rw [List.length_append, List.length_singleton, hlength,
        show last + 1 - first = last - first + 1 from by omega, Nat.mul_add, ← hj, Nat.mul_one]
    · rw [Nat.mul_one]
      exact Nat.sub_add_cancel hsize
  · rw [if_neg hfull]
    refine ⟨last, _, _, rfl, rfl, h.cut hfresh (Nat.not_lt.mp hfull), hsizes _, j + 1, ?_, ?_⟩
    · rw [List.length_append, List.length_singleton, hlength, Nat.add_assoc]
    · show s.alloc.remaining - size + size * (j + 1) = _
      rw [Nat.mul_add]
      omega

end Zones

/-! ## Hash maps with entries in a zone -/

section ZonedMaps

variable {K : Type} {base : ℕ → ℕ} {keyType : HmKeyType K} {first count : ℕ}
  {layout : EntryLayout} {hm : Hashmap K} {zone : ZoneAllocator} {stored : List (K × UInt64)}

/-- A layout with the entry inside an object that fits in a zone. -/
structure EntryLayout.Fits (layout : EntryLayout) : Prop where
  size : layout.size ≤ maxZoneAllocation
  offset : layout.offset < layout.size

theorem bucketEntryLayout_fits : bucketEntryLayout.Fits := ⟨by decide, by decide⟩

/-- The zones that `count` objects take lie in the address space. -/
def ZonesInMemory (base : ℕ → ℕ) (layout : EntryLayout) (first count : ℕ) : Prop :=
  ∀ k, k * (maxZoneAllocation / layout.size) ≤ count → base (first + k) + 4096 ≤ 2 ^ 64

/-- `count` objects have been cut off the zone, and the entries stored are in them. -/
structure EntriesInZone (base : ℕ → ℕ) (layout : EntryLayout) (first count : ℕ)
    (zone : ZoneAllocator) (stored : List (K × UInt64)) : Prop where
  zone : ∃ last regions, ZoneInv base first last ⟨zone, regions⟩ ∧
    ZonesFilled layout.size first last ⟨zone, regions⟩ ∧ regions.length = count ∧
    ∀ x ∈ stored, ∃ r ∈ regions, x.2.toNat = r.ptr + layout.offset

/-- **The invariant** of a hash map whose entries are in objects of a zone. -/
structure ZonedMap (base : ℕ → ℕ) (keyType : HmKeyType K) (layout : EntryLayout)
    (first count : ℕ) (hm : Hashmap K) (zone : ZoneAllocator) (stored : List (K × UInt64)) :
    Prop where
  represents : Represents keyType hm stored
  load : stored.length * 100 < 80 * hm.bucketCount
  buckets : ∃ j ≤ 25, hm.bucketCount = 100 * 2 ^ j
  entries : EntriesInZone base layout first count zone stored

theorem zonedMap_init (keys : UInt64 → HmKey K) (next : ℕ → ℕ) (obtained : ℕ) :
    ZonedMap base keyType layout obtained 0 (hashmapInits 100 keys) (zoneInit base next obtained)
      [] where
  represents := represents_start (by decide) (by decide) keys
  load := by show 0 * 100 < 80 * 100; decide
  buckets := ⟨0, by decide, rfl⟩
  entries := ⟨obtained, [], zoneInv_newZone next obtained, zonesFilled_newZone _ next obtained,
    rfl, fun x hx => by cases hx⟩

/-- **A new object.**  Its entry is not the null pointer, and it is not stored. -/
theorem EntriesInZone.znnew (hfresh : FreshBlocks base) (hlayout : layout.Fits)
    (hmem : ZonesInMemory base layout first (count + 1))
    (h : EntriesInZone base layout first count zone stored) :
    ∃ zone' entry, znnewEntry base layout zone = some (zone', entry) ∧ entry ≠ 0 ∧
      (∀ x ∈ stored, x.2 ≠ entry) ∧
      ∀ stored', (∀ x ∈ stored', x ∈ stored ∨ x.2 = entry) →
        EntriesInZone base layout first (count + 1) zone' stored' := by
  obtain ⟨last, regions, hzone, hfilled, hcount, hstored⟩ := h.zone
  obtain ⟨last', zone', region, halloc, hsize, hzone', hfilled'⟩ :=
    hzone.allocRegion hfresh hlayout.size hfilled
  have hoffset := hlayout.offset
  -- the object lies in one of the zones obtained
  obtain ⟨k, hk, hlast, hstart, hend, -⟩ := hzone'.inside region (by simp)
  have hblock : base k + 4096 ≤ 2 ^ 64 := by
    have hzones := hfilled'.zones_le
    rw [List.length_append, List.length_singleton, hcount] at hzones
    have hkblock := hmem (k - first)
      ((Nat.mul_le_mul_right _ (Nat.sub_le_sub_right hlast first)).trans hzones)
    rwa [Nat.add_sub_cancel' hk] at hkblock
  have htoNat : (UInt64.ofNat (region.ptr + layout.offset)).toNat = region.ptr + layout.offset :=
    UInt64.toNat_ofNat_of_lt' (by show _ < 2 ^ 64; omega)
  have hother : ∀ x ∈ stored, x.2 ≠ UInt64.ofNat (region.ptr + layout.offset) := by
    intro x hx heq
    obtain ⟨r, hr, hptr⟩ := hstored x hx
    rw [heq, htoNat] at hptr
    have hdisjoint := (List.pairwise_append.mp hzone'.disjoint).2.2 r hr region
      (List.mem_singleton.mpr rfl)
    unfold Region.Disjoint at hdisjoint
    rw [hfilled.sizes r hr, hsize] at hdisjoint
    omega
  refine ⟨zone', _, by rw [znnewEntry, halloc]; rfl, ?_, hother, fun stored' hstored' => ?_⟩
  · intro hnull
    rw [hnull] at htoNat
    have hzero : region.ptr + layout.offset = 0 := htoNat.symm
    omega
  · refine ⟨last', regions ++ [region], hzone', hfilled', by simp [hcount], fun x hx => ?_⟩
    rcases hstored' x hx with hx | hx
    · obtain ⟨r, hr, hptr⟩ := hstored x hx
      exact ⟨r, List.mem_append_left _ hr, hptr⟩
    · exact ⟨region, by simp, by rw [hx, htoNat]⟩

/-- Fewer entries stored. -/
theorem EntriesInZone.mono (h : EntriesInZone base layout first count zone stored)
    {stored' : List (K × UInt64)} (hsub : stored' ⊆ stored) :
    EntriesInZone base layout first count zone stored' := by
  obtain ⟨last, regions, hzone, hfilled, hcount, hstored⟩ := h.zone
  exact ⟨last, regions, hzone, hfilled, hcount, fun x hx => hstored x (hsub hx)⟩

/-! ### Adding a key -/

/-- The number of buckets after a set. -/
theorem bucketCount_set (keyType : HmKeyType K) (hm : Hashmap K) (key : HmKey K)
    (entry : UInt64) :
    (hashmapSet keyType hm key entry).bucketCount = hm.bucketCount ∨
      (hashmapSet keyType hm key entry).bucketCount = sizeMul hm.bucketCount 2 ∧
        hashmapIsFull (hashmapInsert keyType hm key entry) := by
  have hcount : (hashmapInsert keyType hm key entry).bucketCount = hm.bucketCount :=
    bucketCount_insert hm key entry
  unfold hashmapSet
  dsimp only
  split
  · rename_i hfull
    refine .inr ⟨?_, hfull⟩
    rw [hashmapRehash_eq]
    have hfold := foldl_rehashEntry ((hashmapInsert keyType hm key entry).relinked
      (toInt (hashmapInsert keyType hm key entry).bucketCount).toNat)
      (hashmapInsert keyType hm key entry).emptied
    rw [hfold.1, ← hcount]
    rfl
  · exact .inl hcount

/-- A map with `100 * 2 ^ 25` buckets is not full before the elements are `80 * 2 ^ 25`. -/
theorem ZonedMap.buckets_lt (h : ZonedMap base keyType layout first count hm zone stored)
    {n : ℕ} (hn : n < 80 * 2 ^ 25) (hfull : 80 ≤ n * 100 / hm.bucketCount) :
    ∃ j < 25, hm.bucketCount = 100 * 2 ^ j := by
  obtain ⟨j, hj, hcount⟩ := h.buckets
  refine ⟨j, lt_of_le_of_ne hj ?_, hcount⟩
  rintro rfl
  rw [hcount, Nat.le_div_iff_mul_le (by decide)] at hfull
  omega

/-- **A set under a new key** with an entry from `znnew`. -/
theorem ZonedMap.add (hlaw : keyType.Lawful) (hfresh : FreshBlocks base) (hlayout : layout.Fits)
    (hmem : ZonesInMemory base layout first (count + 1))
    (h : ZonedMap base keyType layout first count hm zone stored) {key : K}
    (hkey : AssocMap.get keyType.isKeyEqual stored key = none)
    (hfew : stored.length + 1 < 80 * 2 ^ 25) :
    ∃ zone' entry, znnewEntry base layout zone = some (zone', entry) ∧
      (∀ x ∈ stored, x.2 ≠ entry) ∧
      ZonedMap base keyType layout first (count + 1)
        (hashmapSet keyType hm (hmKeyInit keyType key) entry) zone' (stored ++ [(key, entry)]) := by
  obtain ⟨zone', entry, hznnew, hnull, hother, hentries⟩ := h.entries.znnew hfresh hlayout hmem
  have hset : AssocMap.set keyType.isKeyEqual stored key entry = stored ++ [(key, entry)] := by
    rw [AssocMap.set, AssocMap.remove_of_get_eq_none hkey]
  have hlength : (stored ++ [(key, entry)]).length = stored.length + 1 := List.length_append
  have hallowed : ∀ x ∈ stored, x.2 = entry → keyType.isKeyEqual key x.1 :=
    fun x hx heq => absurd heq (hother x hx)
  have hrehash : 80 ≤ (stored ++ [(key, entry)]).length * 100 / hm.bucketCount →
      hm.bucketCount < 2 ^ 31 := by
    intro hfull
    obtain ⟨j, hj, hcount⟩ := h.buckets_lt (hlength ▸ hfew) hfull
    rw [hcount]
    have hpow : 2 ^ j ≤ 2 ^ 24 := Nat.pow_le_pow_right (by decide) (by omega)
    omega
  obtain ⟨hrepresents, hload⟩ :=
    h.represents.set hlaw h.load hnull hallowed (hset ▸ hrehash)
  rw [hset] at hrepresents hload
  refine ⟨zone', entry, hznnew, hother, hrepresents, hload, ?_, hentries _ fun x hx => ?_⟩
  · obtain ⟨j, hj, hcount⟩ := h.buckets
    rcases bucketCount_set keyType hm (hmKeyInit keyType key) entry with hkeep | ⟨hdouble, hfull⟩
    · exact ⟨j, hj, hkeep.trans hcount⟩
    · have hload' := (h.represents.insert hlaw hnull hallowed).load_of_isFull hfull
      rw [hset, bucketCount_insert] at hload'
      obtain ⟨j, hj, hcount⟩ := h.buckets_lt (hlength ▸ hfew) hload'
      have hpow : 2 ^ j ≤ 2 ^ 24 := Nat.pow_le_pow_right (by decide) (by omega)
      refine ⟨j + 1, hj, hdouble.trans ?_⟩
      rw [hcount, sizeMul, Nat.pow_succ]
      omega
  · rcases List.mem_append.mp hx with hx | hx
    · exact .inl hx
    · exact .inr (by rw [List.mem_singleton.mp hx])

/-- **Removal.** -/
theorem ZonedMap.remove (hlaw : keyType.Lawful)
    (h : ZonedMap base keyType layout first count hm zone stored) (key : K) :
    ZonedMap base keyType layout first count (hashmapRemove keyType hm (hmKeyInit keyType key))
      zone (AssocMap.remove keyType.isKeyEqual stored key) where
  represents := h.represents.remove hlaw key
  load := by
    have hlength : (AssocMap.remove keyType.isKeyEqual stored key).length ≤ stored.length :=
      List.length_filter_le _ _
    have hload := h.load
    rw [bucketCount_remove]
    omega
  buckets := by
    rw [bucketCount_remove]
    exact h.buckets
  entries := h.entries.mono (List.filter_subset_self _)

/-! ### The rehash that loses the entries -/

/-- A rehash of a number of buckets that is negative as an `int` visits none of them. -/
theorem hashmapGet_rehash_of_neg (hm : Hashmap K) (hcount : toInt hm.bucketCount ≤ 0)
    (key : HmKey K) : hashmapGet keyType (hashmapRehash hm) key = none := by
  rw [hashmapGet, hashmapFindInBucket_eq, hashmapRehash_eq, Int.toNat_of_nonpos hcount]
  rfl

/-- With the element that makes `80 * 2 ^ 25`, all are lost. -/
theorem ZonedMap.lost (hlaw : keyType.Lawful)
    (h : ZonedMap base keyType layout first count hm zone stored) {key : K} {entry : UInt64}
    (hkey : AssocMap.get keyType.isKeyEqual stored key = none) (hnull : entry ≠ 0)
    (hother : ∀ x ∈ stored, x.2 ≠ entry) (hmany : stored.length + 1 = 80 * 2 ^ 25)
    (key' : HmKey K) :
    hashmapGet keyType (hashmapSet keyType hm (hmKeyInit keyType key) entry) key' = none := by
  obtain ⟨j, hj, hcount⟩ := h.buckets
  have hload := h.load
  have hj25 : j = 25 := by
    by_contra hne
    have hpow : 2 ^ j ≤ 2 ^ 24 := Nat.pow_le_pow_right (by decide) (by omega)
    omega
  rw [hj25] at hcount
  have hset : AssocMap.set keyType.isKeyEqual stored key entry = stored ++ [(key, entry)] := by
    rw [AssocMap.set, AssocMap.remove_of_get_eq_none hkey]
  have hallowed : ∀ x ∈ stored, x.2 = entry → keyType.isKeyEqual key x.1 :=
    fun x hx heq => absurd heq (hother x hx)
  have hinsert := h.represents.insert hlaw hnull hallowed
  rw [hset] at hinsert
  have hlength : (stored ++ [(key, entry)]).length = stored.length + 1 := List.length_append
  have hcount' : (hashmapInsert keyType hm (hmKeyInit keyType key) entry).bucketCount =
      100 * 2 ^ 25 := (bucketCount_insert hm _ entry).trans hcount
  have hfull : hashmapIsFull (hashmapInsert keyType hm (hmKeyInit keyType key) entry) := by
    refine hinsert.isFull_of_load ?_ ?_
    · rw [hlength, hmany]
      decide
    · rw [hlength, hmany, hcount']
      decide
  unfold hashmapSet
  dsimp only
  rw [if_pos hfull]
  exact hashmapGet_rehash_of_neg _ (by rw [hcount']; decide) key'

end ZonedMaps

/-! ## Every run -/

section Sets

variable {K : Type} [DecidableEq K] {base : ℕ → ℕ} {keyType : HmKeyType K} {first count : ℕ}
  {hs : Hashset K} {elements : Finset K}

/-- **The invariant of the hash set**: its map has the elements as keys. -/
def HashsetInv (base : ℕ → ℕ) (keyType : HmKeyType K) (first count : ℕ) (hs : Hashset K)
    (elements : Finset K) : Prop :=
  ∃ stored, ZonedMap base keyType bucketEntryLayout first count hs.hashmap hs.zone stored ∧
    elements = (stored.map Prod.fst).toFinset

theorem hashsetInv_init (keys : UInt64 → HmKey K) (next : ℕ → ℕ) (obtained : ℕ) :
    HashsetInv base keyType obtained 0 (hashsetInit base keys next obtained) ∅ :=
  ⟨[], zonedMap_init keys next obtained, rfl⟩

omit [DecidableEq K] in
/-- The insertion of a key that is not found. -/
theorem hashsetInsert_of_none {key : K} {zone' : ZoneAllocator} {entry : UInt64}
    (hget : hashmapGet keyType hs.hashmap (hmKeyInit keyType key) = none)
    (hznnew : znnewEntry base bucketEntryLayout hs.zone = some (zone', entry)) :
    hashsetInsert base keyType hs key =
      some (⟨hashmapSet keyType hs.hashmap (hmKeyInit keyType key) entry, zone'⟩, true) := by
  rw [hashsetInsert, hget]
  dsimp only
  rw [hznnew]
  rfl

variable (heq : ∀ a b, keyType.isKeyEqual a b ↔ a = b)
include heq

theorem get_isSome_iff {stored : List (K × UInt64)} {key : K} :
    (AssocMap.get keyType.isKeyEqual stored key).isSome ↔
      key ∈ (stored.map Prod.fst).toFinset := by
  rw [Option.isSome_iff_ne_none, ne_eq, AssocMap.get_eq_none_iff, List.mem_toFinset, List.mem_map]
  push Not
  constructor
  · rintro ⟨x, hx, hsome⟩
    exact ⟨x, hx, ((heq key x.1).mp (by simpa using hsome)).symm⟩
  · rintro ⟨x, hx, rfl⟩
    exact ⟨x, hx, by simpa using (heq x.1 x.1).mpr rfl⟩

/-- **A query** answers as the set does. -/
theorem HashsetInv.exists_eq (h : HashsetInv base keyType first count hs elements) (key : K) :
    hashsetExists keyType hs key = decide (key ∈ elements) := by
  obtain ⟨stored, hmap, rfl⟩ := h
  have hlaw := HmKeyType.lawful_of_eq heq
  rw [hashsetExists, hmap.represents.get_eq hlaw, Bool.eq_iff_iff, get_isSome_iff heq,
    decide_eq_true_eq]

/-- The keys of a represented map are counted by its entries. -/
theorem card_keys {stored : List (K × UInt64)} (h : AssocMap.Distinct keyType.isKeyEqual stored) :
    (stored.map Prod.fst).toFinset.card = stored.length := by
  have hnodup : (stored.map Prod.fst).Nodup := by
    refine List.pairwise_map.mpr (h.imp ?_)
    intro x y hne hxy
    rw [(heq x.1 y.1).mpr hxy] at hne
    cases hne
  rw [List.toFinset_card_of_nodup hnodup, List.length_map]

/-- **Inserting an element** changes nothing. -/
theorem HashsetInv.insert_mem (h : HashsetInv base keyType first count hs elements) {key : K}
    (hkey : key ∈ elements) : hashsetInsert base keyType hs key = some (hs, false) := by
  have hexists := h.exists_eq heq key
  rw [decide_eq_true hkey] at hexists
  obtain ⟨entry, hentry⟩ := Option.isSome_iff_exists.mp hexists
  rw [hashsetInsert, hentry]

/-- A new key is not found in the map. -/
theorem ZonedMap.get_eq_none {layout : EntryLayout} {stored : List (K × UInt64)} {key : K}
    (hmap : ZonedMap base keyType layout first count hs.hashmap hs.zone stored)
    (hkey : key ∉ (stored.map Prod.fst).toFinset) :
    AssocMap.get keyType.isKeyEqual stored key = none ∧
      hashmapGet keyType hs.hashmap (hmKeyInit keyType key) = none := by
  have hnone : AssocMap.get keyType.isKeyEqual stored key = none := by
    rw [← Option.not_isSome_iff_eq_none, get_isSome_iff heq]
    exact hkey
  exact ⟨hnone, (hmap.represents.get_eq (HmKeyType.lawful_of_eq heq) key).trans hnone⟩

/-- **Inserting a new key.** -/
theorem HashsetInv.insert_new (hfresh : FreshBlocks base)
    (hmem : ZonesInMemory base bucketEntryLayout first (count + 1))
    (h : HashsetInv base keyType first count hs elements) {key : K} (hkey : key ∉ elements)
    (hfew : (insert key elements).card < 80 * 2 ^ 25) :
    ∃ hs', hashsetInsert base keyType hs key = some (hs', true) ∧
      HashsetInv base keyType first (count + 1) hs' (insert key elements) := by
  obtain ⟨stored, hmap, rfl⟩ := h
  obtain ⟨hnone, hget⟩ := hmap.get_eq_none heq hkey
  rw [Finset.card_insert_of_notMem hkey, card_keys heq hmap.represents.distinct] at hfew
  obtain ⟨zone', entry, hznnew, -, hmap'⟩ := hmap.add (HmKeyType.lawful_of_eq heq) hfresh
    bucketEntryLayout_fits hmem hnone hfew
  refine ⟨_, hashsetInsert_of_none hget hznnew, _, hmap', ?_⟩
  ext x
  simp

/-- **The insertion that loses the elements.** -/
theorem HashsetInv.insert_lost (hfresh : FreshBlocks base)
    (hmem : ZonesInMemory base bucketEntryLayout first (count + 1))
    (h : HashsetInv base keyType first count hs elements) {key : K} (hkey : key ∉ elements)
    (hmany : (insert key elements).card = 80 * 2 ^ 25) :
    ∃ hs', hashsetInsert base keyType hs key = some (hs', true) ∧
      ∀ key', hashsetExists keyType hs' key' = false := by
  obtain ⟨stored, hmap, rfl⟩ := h
  obtain ⟨hnone, hget⟩ := hmap.get_eq_none heq hkey
  rw [Finset.card_insert_of_notMem hkey, card_keys heq hmap.represents.distinct] at hmany
  obtain ⟨zone', entry, hznnew, hnull, hother, -⟩ :=
    hmap.entries.znnew hfresh bucketEntryLayout_fits hmem
  refine ⟨_, hashsetInsert_of_none hget hznnew, fun key' => ?_⟩
  rw [hashsetExists, hmap.lost (HmKeyType.lawful_of_eq heq) hnone hnull hother hmany]
  rfl

/-- **Removing a key.** -/
theorem HashsetInv.remove (h : HashsetInv base keyType first count hs elements) (key : K) :
    HashsetInv base keyType first count (hashsetRemove keyType hs (hmKeyInit keyType key))
      (elements.erase key) := by
  obtain ⟨stored, hmap, rfl⟩ := h
  refine ⟨_, hmap.remove (HmKeyType.lawful_of_eq heq) key, ?_⟩
  ext x
  have hne : ∀ y, keyType.isKeyEqual key y = false ↔ y ≠ key := by
    intro y
    rw [← Bool.not_eq_true, heq, ne_comm]
  simp only [Finset.mem_erase, List.mem_toFinset, List.mem_map, AssocMap.mem_remove, hne]
  constructor
  · rintro ⟨hx, y, hy, rfl⟩
    exact ⟨y, ⟨hy, hx⟩, rfl⟩
  · rintro ⟨y, ⟨hy, hx⟩, rfl⟩
    exact ⟨hx, y, hy, rfl⟩

/-- **One call** that leaves fewer than `80 * 2 ^ 25` elements. -/
theorem HashsetInv.step (hfresh : FreshBlocks base)
    (hmem : ZonesInMemory base bucketEntryLayout first (count + 1)) {s : HashsetRun K}
    {t : SetRun K} (h : HashsetInv base keyType first count s.hs t.elements)
    (hanswers : s.answers = t.answers) (op : HashsetOp K)
    (hfew : (setStep t op).elements.card < 80 * 2 ^ 25) :
    ∃ s', hashsetStep base keyType s op = some s' ∧ s'.answers = (setStep t op).answers ∧
      ∃ count' ≤ count + 1, HashsetInv base keyType first count' s'.hs (setStep t op).elements := by
  cases op with
  | insert key =>
      by_cases hkey : key ∈ t.elements
      · refine ⟨⟨s.hs, s.answers ++ [false]⟩, ?_, ?_, count, Nat.le_succ _, ?_⟩
        · rw [hashsetStep, h.insert_mem heq hkey]
          rfl
        · simp [setStep, hanswers, hkey]
        · rw [setStep, Finset.insert_eq_of_mem hkey]
          exact h
      · obtain ⟨hs', hinsert, hinv⟩ := h.insert_new heq hfresh hmem hkey hfew
        refine ⟨⟨hs', s.answers ++ [true]⟩, ?_, ?_, count + 1, Nat.le_refl _, hinv⟩
        · rw [hashsetStep, hinsert]
          rfl
        · simp [setStep, hanswers, hkey]
  | «exists» key =>
      refine ⟨_, rfl, ?_, count, Nat.le_succ _, h⟩
      rw [h.exists_eq heq key, hanswers]
      rfl
  | remove key => exact ⟨_, rfl, hanswers, count, Nat.le_succ _, h.remove heq key⟩

/-- **A run** with fewer than `80 * 2 ^ 25` elements at all times. -/
theorem HashsetInv.run (hfresh : FreshBlocks base) (keys : UInt64 → HmKey K) (next : ℕ → ℕ)
    (obtained : ℕ) (ops : List (HashsetOp K))
    (hmem : ZonesInMemory base bucketEntryLayout obtained ops.length)
    (hfew : ∀ before, before <+: ops → (setAfter before).elements.card < 80 * 2 ^ 25) :
    ∃ s, Runs.run (hashsetStep base keyType) ⟨hashsetInit base keys next obtained, []⟩ ops =
        some s ∧ s.answers = (setAfter ops).answers ∧
      ∃ count ≤ ops.length,
        HashsetInv base keyType obtained count s.hs (setAfter ops).elements := by
  induction ops using List.reverseRecOn with
  | nil => exact ⟨_, rfl, rfl, 0, Nat.le_refl _, hashsetInv_init keys next obtained⟩
  | append_singleton ops op ih =>
      rw [List.length_append, List.length_singleton] at hmem
      obtain ⟨s, hrun, hanswers, count, hcount, hinv⟩ :=
        ih (fun k hk => hmem k (hk.trans (Nat.le_succ _)))
          (fun before hbefore => hfew before (hbefore.trans (List.prefix_append _ _)))
      have hafter : setAfter (ops ++ [op]) = setStep (setAfter ops) op := by
        rw [setAfter, List.foldl_append]
        rfl
      obtain ⟨s', hstep, hanswers', count', hcount', hinv'⟩ := hinv.step heq hfresh
        (fun k hk => hmem k (hk.trans (Nat.succ_le_succ hcount))) hanswers op
        (hafter ▸ hfew _ List.prefix_rfl)
      refine ⟨s', ?_, hafter ▸ hanswers', count', ?_, hafter ▸ hinv'⟩
      · rw [run_append, hrun]
        exact (run_singleton _ _).trans hstep
      · rw [List.length_append, List.length_singleton]
        omega

omit heq in
/-- The count reaches a bound by the insertion of a new key. -/
theorem setStep_reaches {n : ℕ} {t : SetRun K} {op : HashsetOp K} (hbelow : t.elements.card < n)
    (hreached : ¬ (setStep t op).elements.card < n) :
    ∃ key, op = .insert key ∧ key ∉ t.elements ∧ (insert key t.elements).card = n := by
  cases op with
  | insert key =>
      change ¬ (insert key t.elements).card < n at hreached
      by_cases hkey : key ∈ t.elements
      · rw [Finset.insert_eq_of_mem hkey] at hreached
        exact absurd hbelow hreached
      · rw [Finset.card_insert_of_notMem hkey] at hreached
        refine ⟨key, rfl, hkey, ?_⟩
        rw [Finset.card_insert_of_notMem hkey]
        omega
  | «exists» key => exact absurd hbelow hreached
  | remove key =>
      have hle : (setStep t (.remove key)).elements.card ≤ t.elements.card :=
        Finset.card_erase_le
      omega

/-- The call that makes `80 * 2 ^ 25` elements leaves a hash set that answers wrongly. -/
theorem not_answersAsSet_of_reached (hfresh : FreshBlocks base) (keys : UInt64 → HmKey K)
    (next : ℕ → ℕ) (obtained : ℕ) (ops : List (HashsetOp K)) (op : HashsetOp K)
    (hmem : ZonesInMemory base bucketEntryLayout obtained (ops.length + 1))
    (hfew : ∀ before, before <+: ops → (setAfter before).elements.card < 80 * 2 ^ 25)
    (hreached : ¬ (setAfter (ops ++ [op])).elements.card < 80 * 2 ^ 25) :
    ¬ AnswersAsSet base keyType (hashsetInit base keys next obtained) (ops ++ [op]) := by
  rintro ⟨s', hrun', -, hexists⟩
  obtain ⟨s, hrun, -, count, hcount, hinv⟩ := HashsetInv.run heq hfresh keys next obtained ops
    (fun k hk => hmem k (hk.trans (Nat.le_succ _))) hfew
  have hafter : setAfter (ops ++ [op]) = setStep (setAfter ops) op := by
    rw [setAfter, List.foldl_append]
    rfl
  rw [hafter] at hreached hexists
  obtain ⟨key, rfl, hkey, hcard⟩ := setStep_reaches (hfew ops List.prefix_rfl) hreached
  obtain ⟨hs', hinsert, hlost⟩ := hinv.insert_lost heq hfresh
    (fun k hk => hmem k (hk.trans (Nat.succ_le_succ hcount))) hkey hcard
  rw [run_append, hrun, Option.bind_some, run_singleton, hashsetStep, hinsert] at hrun'
  cases hrun'
  -- the key just inserted is not found
  have hwrong := hexists key
  rw [hlost key] at hwrong
  simp [setStep] at hwrong

/-- **The hash set is a finite set** after every call exactly if there are never
`80 * 2 ^ 25` elements. -/
theorem hashset_answers_iff (hfresh : FreshBlocks base) (keys : UInt64 → HmKey K)
    (next : ℕ → ℕ) (obtained : ℕ) (ops : List (HashsetOp K))
    (hmem : ZonesInMemory base bucketEntryLayout obtained ops.length) :
    (∀ before, before <+: ops →
        AnswersAsSet base keyType (hashsetInit base keys next obtained) before) ↔
      ∀ before, before <+: ops → (setAfter before).elements.card < 80 * 2 ^ 25 := by
  constructor
  · intro hall before hbefore
    induction before using Nat.strongRecMeasure List.length with
    | ind before ih =>
        rcases List.eq_nil_or_concat' before with rfl | ⟨front, op, rfl⟩
        · show (∅ : Finset K).card < _
          rw [Finset.card_empty]
          decide
        · have hlength : (front ++ [op]).length = front.length + 1 := by simp
          by_contra hreached
          refine not_answersAsSet_of_reached heq hfresh keys next obtained front op ?_ ?_
            hreached (hall _ hbefore)
          · exact fun k hk => hmem k (hk.trans (hlength ▸ hbefore.length_le))
          · intro before' hbefore'
            exact ih before' (by have := hbefore'.length_le; omega)
              ((hbefore'.trans (List.prefix_append _ _)).trans hbefore)
  · intro hfew before hbefore
    obtain ⟨s, hrun, hanswers, count, -, hinv⟩ := HashsetInv.run heq hfresh keys next obtained
      before (fun k hk => hmem k (hk.trans hbefore.length_le))
      (fun before' hbefore' => hfew before' (hbefore'.trans hbefore))
    exact ⟨s, hrun, hanswers, hinv.exists_eq heq⟩

end Sets

/-- A set of pointers; two of them have the same low 32 bits. -/
theorem hashset_answers_iff_pointers :
    (∀ before, before <+: [HashsetOp.insert 5, .insert 0x100000005, .insert 5, .remove 5,
          .exists 0x100000005, .insert 5] →
        AnswersAsSet (fun k => 4096 * (k + 1)) ptrKeyType
          (hashsetInit (fun k => 4096 * (k + 1)) (fun _ => ⟨0, 0⟩) (fun _ => 0) 0) before) ↔
      ∀ before, before <+: [HashsetOp.insert 5, .insert 0x100000005, .insert 5, .remove 5,
          .exists 0x100000005, .insert (5 : UInt64)] →
        (setAfter before).elements.card < 80 * 2 ^ 25 :=
  hashset_answers_iff (fun _ _ => beq_iff_eq)
    ⟨fun k => by omega, fun i j hij => by omega⟩ (fun _ => ⟨0, 0⟩) (fun _ => 0) 0 _ (by
      intro k hk
      have hfits : k * 85 ≤ 6 := hk
      show 4096 * (0 + k + 1) + 4096 ≤ 2 ^ 64
      omega)
