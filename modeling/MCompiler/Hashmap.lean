/-
# The hash map (`hashmap.c`)

An intrusive hash map with chaining.  The entry objects belong to the callers; an entry
is known by its address, and the key stored in it is part of the state.  A bucket is a
list head that is zeroed until it is first used: the model of a bucket is `none` for a
zeroed head and the list of the entries in it otherwise.
-/
import MCompiler.Range

/-- `struct hm_key`: the key itself and its hash. -/
structure HmKey (K : Type) where
  key : K
  hash : UInt64

/-- `struct hm_key_type`. -/
structure HmKeyType (K : Type) where
  isKeyEqual : K → K → Bool
  hashKey : K → UInt64

/-! ## Key types -/

/-- `range_djb`. -/
def rangeDjb (range : Range) : UInt64 :=
  range.foldl (fun hash c => (hash <<< 5) + hash + UInt64.ofInt (charValue c)) 5381

/-- `(unsigned long)key->i_key`. -/
def intHash (key : Int32) : UInt64 := UInt64.ofInt key.toInt

/-- `intKeyType`. -/
def intKeyType : HmKeyType Int32 := ⟨fun a b => a == b, intHash⟩

/-- `rangeKeyType`. -/
def rangeKeyType : HmKeyType Range := ⟨fun a b => a == b, rangeDjb⟩

/-- `ptrKeyType`: the hash is that of the low 32 bits, read as an `int`. -/
def ptrKeyType : HmKeyType UInt64 := ⟨fun a b => a == b, fun p => intHash p.toUInt32.toInt32⟩

/-! ## The data type -/

/-- A bucket: a zeroed list head, or the circular list of its entries. -/
abbrev Bucket := Option (List UInt64)

/-- `hashmap_t`, with the bytes of the block that holds the buckets and the keys that the
entry objects hold. -/
structure Hashmap (K : Type) where
  buckets : ℕ → Bucket
  allocated : ℕ
  bucketCount : ℕ
  size : ℕ
  keys : UInt64 → HmKey K

section Operations

variable {K : Type} (keyType : HmKeyType K)

/-- `hm_key_init`. -/
def hmKeyInit (key : K) : HmKey K := ⟨key, keyType.hashKey key⟩

/-- `hashmap_inits`; `keys` are the keys in the entry objects at this time.  A
`struct list_head` has 16 bytes. -/
def hashmapInits (bucketCount : ℕ) (keys : UInt64 → HmKey K) : Hashmap K :=
  { buckets := fun _ => none, allocated := sizeMul 16 bucketCount, bucketCount := bucketCount,
    size := 0, keys := keys }

/-- `_hashmap_locateBucket`: the index of the bucket. -/
def hashmapLocateBucket (hm : Hashmap K) (key : HmKey K) : ℕ := key.hash.toNat % hm.bucketCount

/-- `_hashmap_findInBucket`. -/
def hashmapFindInBucket (hm : Hashmap K) (bucket : ℕ) (key : HmKey K) : Option UInt64 :=
  match hm.buckets bucket with
  | none => none
  | some entries => entries.find? (fun e => keyType.isKeyEqual key.key (hm.keys e).key)

/-- `list_deattach` of an entry in a bucket. -/
def bucketDeattach (buckets : ℕ → Bucket) (bucket : ℕ) (entry : UInt64) : ℕ → Bucket :=
  fun i => if i = bucket then (buckets i).map (fun entries => entries.erase entry) else buckets i

/-- `LIST_INIT` of a bucket that is still zeroed, and `list_add`. -/
def bucketAdd (buckets : ℕ → Bucket) (bucket : ℕ) (entry : UInt64) : ℕ → Bucket :=
  fun i => if i = bucket then some ((buckets i).getD [] ++ [entry]) else buckets i

/-- The loop body of `hashmap_rehash` for one entry. -/
def rehashEntry (hm : Hashmap K) (entry : UInt64) : Hashmap K :=
  { hm with buckets :=
      bucketAdd hm.buckets (hashmapLocateBucket hm (hm.keys entry)) entry }

/-- The loop body of `hashmap_rehash` for one old bucket. -/
def rehashBucket (old : ℕ → Bucket) (hm : Hashmap K) (i : ℕ) : Hashmap K :=
  match old i with
  | none => hm
  | some entries => entries.foldl rehashEntry hm

/-- `hashmap_rehash`: the old bucket count is converted to `int`. -/
def hashmapRehash (hm : Hashmap K) : Hashmap K :=
  let oldCount := toInt hm.bucketCount
  let old := hm.buckets
  let bucketCount := sizeMul hm.bucketCount 2
  let hm := { hm with
    bucketCount := bucketCount, buckets := fun _ => none, allocated := sizeMul 16 bucketCount }
  (List.range oldCount.toNat).foldl (rehashBucket old) hm

/-- The insertion in `hashmap_set`, before it asks whether to rehash. -/
def hashmapInsert (hm : Hashmap K) (key : HmKey K) (entry : UInt64) : Hashmap K :=
  let bucket := hashmapLocateBucket hm key
  let hm := match hashmapFindInBucket keyType hm bucket key with
    | none => hm
    | some found =>
        { hm with
          buckets := bucketDeattach hm.buckets bucket found
          size := sizeSub hm.size 1 }
  { hm with
    keys := fun e => if e = entry then key else hm.keys e
    buckets := bucketAdd hm.buckets bucket entry
    size := sizeAdd hm.size 1 }

/-- The test whether the map is full enough to be rehashed. -/
def hashmapIsFull (hm : Hashmap K) : Bool := ¬ sizeMul hm.size 100 / hm.bucketCount < 80

/-- `hashmap_set`. -/
def hashmapSet (hm : Hashmap K) (key : HmKey K) (entry : UInt64) : Hashmap K :=
  let hm := hashmapInsert keyType hm key entry
  if hashmapIsFull hm then hashmapRehash hm else hm

/-- `hashmap_get`; the null pointer is `none`. -/
def hashmapGet (hm : Hashmap K) (key : HmKey K) : Option UInt64 :=
  hashmapFindInBucket keyType hm (hashmapLocateBucket hm key) key

/-- `hashmap_remove`. -/
def hashmapRemove (hm : Hashmap K) (key : HmKey K) : Hashmap K :=
  let bucket := hashmapLocateBucket hm key
  match hashmapFindInBucket keyType hm bucket key with
  | none => hm
  | some found =>
      { hm with
        buckets := bucketDeattach hm.buckets bucket found
        size := sizeSub hm.size 1 }

end Operations
