/-
# The hash map is a finite map

The abstract state next to the hash map is the list of the keys that are present with
their entries (`AssocMap`).  `Represents` says that the buckets hold exactly these
entries, each in the bucket of its hash; `hashmap_set` and `hashmap_remove` keep it,
and under it `hashmap_get` answers as the finite map does.

* `hashmap_run_correct` : this is so in every run in which no rehash happens at `2 ^ 31`
  buckets or more;
* `hashmap_rehash_loses_entries` : a rehash at `2 ^ 31` buckets forgets every entry,
  because it counts the old buckets in an `int`.
-/
import MCompiler.Hashmap
import MCompiler.Lib.AssocMap
import MCompiler.Lib.Runs
import Mathlib.Data.Finset.Card
import Mathlib.Data.Fintype.Card

open Runs

/-! ## Runs of calls -/

/-- A hash map together with the finite map it stands for. -/
structure HashmapSession (K : Type) where
  hm : Hashmap K
  stored : List (K × UInt64)

/-- A call. -/
inductive HashmapOp (K : Type) where
  | set (key : K) (entry : UInt64)
  | get (key : K)
  | remove (key : K)

section Sessions

variable {K : Type} (keyType : HmKeyType K)

/-- The state after a call: keys are initialised with their hash, and the finite map
changes as its operation says. -/
def hashmapStep (s : HashmapSession K) : HashmapOp K → HashmapSession K
  | .set key entry =>
      { hm := hashmapSet keyType s.hm (hmKeyInit keyType key) entry
        stored := AssocMap.set keyType.isKeyEqual s.stored key entry }
  | .get _ => s
  | .remove key =>
      { hm := hashmapRemove keyType s.hm (hmKeyInit keyType key)
        stored := AssocMap.remove keyType.isKeyEqual s.stored key }

/-- The start: a map of `bucketCount` buckets. -/
def hashmapStart (bucketCount : ℕ) (keys : UInt64 → HmKey K) : HashmapSession K :=
  ⟨hashmapInits bucketCount keys, []⟩

/-- An entry is an object, and is not inserted while it is stored under another key. -/
def HashmapOp.Allowed (s : HashmapSession K) : HashmapOp K → Prop
  | .set key entry => entry ≠ 0 ∧ ∀ x ∈ s.stored, x.2 = entry → keyType.isKeyEqual key x.1
  | _ => True

/-- If a set brings the map to four entries for five buckets, there are fewer than
`2 ^ 31` buckets. -/
def HashmapOp.RehashFits (s : HashmapSession K) : HashmapOp K → Prop
  | .set key entry =>
      80 ≤ (AssocMap.set keyType.isKeyEqual s.stored key entry).length * 100 / s.hm.bucketCount →
        s.hm.bucketCount < 2 ^ 31
  | _ => True

instance decidableAllowed (s : HashmapSession K) :
    ∀ op : HashmapOp K, Decidable (op.Allowed keyType s)
  | .set key entry =>
      inferInstanceAs (Decidable
        (entry ≠ 0 ∧ ∀ x ∈ s.stored, x.2 = entry → keyType.isKeyEqual key x.1))
  | .get _ => isTrue trivial
  | .remove _ => isTrue trivial

instance decidableRehashFits (s : HashmapSession K) :
    ∀ op : HashmapOp K, Decidable (op.RehashFits keyType s)
  | .set key entry =>
      inferInstanceAs (Decidable
        (80 ≤ (AssocMap.set keyType.isKeyEqual s.stored key entry).length * 100 /
          s.hm.bucketCount → s.hm.bucketCount < 2 ^ 31))
  | .get _ => isTrue trivial
  | .remove _ => isTrue trivial

/-- After the call the hash map answers for every key as the finite map does, its size
is the number of keys present, which are all different, and every bucket is inside the
allocated block.  After a set the map is not full, and the rehash, if there was one,
has changed no answer. -/
structure HashmapOp.Correct (s : HashmapSession K) (op : HashmapOp K) : Prop where
  get : ∀ key, hashmapGet keyType (hashmapStep keyType s op).hm (hmKeyInit keyType key) =
    AssocMap.get keyType.isKeyEqual (hashmapStep keyType s op).stored key
  size : (hashmapStep keyType s op).hm.size = (hashmapStep keyType s op).stored.length
  distinct : AssocMap.Distinct keyType.isKeyEqual (hashmapStep keyType s op).stored
  allocated : 16 * (hashmapStep keyType s op).hm.bucketCount ≤
    (hashmapStep keyType s op).hm.allocated
  load : ∀ key entry, op = .set key entry →
    (hashmapStep keyType s op).hm.size * 100 / (hashmapStep keyType s op).hm.bucketCount < 80
  rehash : ∀ key entry, op = .set key entry → ∀ key',
    hashmapGet keyType (hashmapStep keyType s op).hm (hmKeyInit keyType key') =
      hashmapGet keyType (hashmapInsert keyType s.hm (hmKeyInit keyType key) entry)
        (hmKeyInit keyType key')

/-- What a key type has to satisfy: an equivalence that the hash respects. -/
structure HmKeyType.Lawful : Prop where
  eqv : AssocMap.EqvKeys keyType.isKeyEqual
  hash : ∀ a b, keyType.isKeyEqual a b → keyType.hashKey a = keyType.hashKey b

/-! ## The representation invariant -/

/-- The entries in a bucket. -/
def Hashmap.entries (hm : Hashmap K) (i : ℕ) : List UInt64 := (hm.buckets i).getD []

/-- **The representation invariant.**  The bucket `i` holds, once each, the entries of
the keys whose hash falls on `i`, and an entry object holds the key it is stored under. -/
structure Represents (hm : Hashmap K) (m : List (K × UInt64)) : Prop where
  pos : 0 < hm.bucketCount
  allocated : 16 * hm.bucketCount ≤ hm.allocated
  size : hm.size = m.length
  mem : ∀ i e, e ∈ hm.entries i ↔
    ∃ k, (k, e) ∈ m ∧ (keyType.hashKey k).toNat % hm.bucketCount = i
  nodup : ∀ i, (hm.entries i).Nodup
  keys : ∀ x ∈ m, hm.keys x.2 = hmKeyInit keyType x.1
  entries : (m.map Prod.snd).Nodup
  object : ∀ x ∈ m, x.2 ≠ 0
  distinct : AssocMap.Distinct keyType.isKeyEqual m

end Sessions

section Proofs

variable {K : Type} {keyType : HmKeyType K} {hm : Hashmap K} {m : List (K × UInt64)}

/-- Different objects are fewer than there are addresses. -/
theorem length_lt_of_objects (entries : (m.map Prod.snd).Nodup) (object : ∀ x ∈ m, x.2 ≠ 0) :
    m.length < 2 ^ 64 := by
  have hnodup : (0 :: m.map Prod.snd).Nodup := by
    refine List.nodup_cons.mpr ⟨?_, entries⟩
    intro hmem
    obtain ⟨x, hx, hx0⟩ := List.mem_map.mp hmem
    exact object x hx hx0
  have hnat : ((0 :: m.map Prod.snd).map UInt64.toNat).Nodup :=
    hnodup.map (fun a b hab => UInt64.toNat_inj.mp hab)
  have hsub : ((0 :: m.map Prod.snd).map UInt64.toNat).toFinset ⊆ Finset.range (2 ^ 64) := by
    intro n hn
    obtain ⟨e, _, rfl⟩ := List.mem_map.mp (List.mem_toFinset.mp hn)
    exact Finset.mem_range.mpr e.toNat_lt
  have hcard := Finset.card_le_card hsub
  rw [List.toFinset_card_of_nodup hnat, Finset.card_range] at hcard
  simpa [Nat.succ_le_iff] using hcard

theorem Represents.length_lt (h : Represents keyType hm m) : m.length < 2 ^ 64 :=
  length_lt_of_objects h.entries h.object

/-- An entry lies in one bucket only. -/
theorem Represents.bucket_eq (h : Represents keyType hm m) {i : ℕ} {e : UInt64}
    (he : e ∈ hm.entries i) : hashmapLocateBucket hm (hm.keys e) = i := by
  obtain ⟨k, hk, hi⟩ := (h.mem i e).mp he
  rw [hashmapLocateBucket, h.keys _ hk]
  exact hi

theorem represents_start {n : ℕ} (hn : 0 < n) (hbytes : 16 * n < 2 ^ 64)
    (keys : UInt64 → HmKey K) : Represents keyType (hashmapInits n keys) [] where
  pos := hn
  allocated := (Nat.mod_eq_of_lt hbytes).ge
  size := rfl
  mem := fun i e => by simp [Hashmap.entries, hashmapInits]
  nodup := fun i => List.nodup_nil
  keys := fun x hx => by cases hx
  entries := List.nodup_nil
  object := fun x hx => by cases hx
  distinct := List.Pairwise.nil

/-! ## Lookup -/

theorem hashmapFindInBucket_eq (hm : Hashmap K) (i : ℕ) (key : HmKey K) :
    hashmapFindInBucket keyType hm i key =
      (hm.entries i).find? (fun e => keyType.isKeyEqual key.key (hm.keys e).key) := by
  unfold hashmapFindInBucket Hashmap.entries
  cases hm.buckets i <;> rfl

/-- **Lookup.**  The search of the bucket answers as the finite map does. -/
theorem Represents.get_eq (h : Represents keyType hm m) (hlaw : keyType.Lawful) (key : K) :
    hashmapGet keyType hm (hmKeyInit keyType key) = AssocMap.get keyType.isKeyEqual m key := by
  rw [hashmapGet, hashmapFindInBucket_eq]
  show (hm.entries _).find? (fun e => keyType.isKeyEqual key (hm.keys e).key) = _
  set i := hashmapLocateBucket hm (hmKeyInit keyType key) with hi
  have hstored : ∀ e ∈ hm.entries i, ∃ k, (k, e) ∈ m ∧ (hm.keys e).key = k := by
    intro e he
    obtain ⟨k, hk, -⟩ := (h.mem i e).mp he
    exact ⟨k, hk, by rw [h.keys _ hk]; rfl⟩
  cases hget : AssocMap.get keyType.isKeyEqual m key with
  | none =>
      apply List.find?_eq_none.mpr
      intro e he
      obtain ⟨k, hk, hkey⟩ := hstored e he
      rw [hkey, AssocMap.get_eq_none_iff.mp hget _ hk]
      exact Bool.false_ne_true
  | some v =>
      obtain ⟨k, hk, heq⟩ := AssocMap.mem_of_get hget
      have hv : v ∈ hm.entries i := by
        refine (h.mem i v).mpr ⟨k, hk, ?_⟩
        rw [← hlaw.hash key k heq]
        rfl
      cases hfind : (hm.entries i).find? (fun e => keyType.isKeyEqual key (hm.keys e).key) with
      | none =>
          have hno := List.find?_eq_none.mp hfind v hv
          rw [h.keys _ hk] at hno
          exact absurd heq hno
      | some e =>
          obtain ⟨k', hk', hkey⟩ := hstored e (List.mem_of_find?_eq_some hfind)
          have heq' : keyType.isKeyEqual key k' := by
            have hsome := List.find?_some hfind
            rwa [hkey] at hsome
          have hget' := h.distinct.get_of_mem hlaw.eqv hk' heq'
          rw [hget] at hget'
          exact hget'.symm

/-! ## Removal -/

theorem entries_deattach (hm : Hashmap K) (size i j : ℕ) (e : UInt64) :
    ({ hm with buckets := bucketDeattach hm.buckets i e, size := size } : Hashmap K).entries j =
      if j = i then (hm.entries j).erase e else hm.entries j := by
  unfold Hashmap.entries bucketDeattach
  by_cases hj : j = i
  · simp only [hj, if_true]
    cases hm.buckets i <;> rfl
  · simp only [hj, if_false]

/-- **Removal.** -/
theorem Represents.remove (h : Represents keyType hm m) (hlaw : keyType.Lawful) (key : K) :
    Represents keyType (hashmapRemove keyType hm (hmKeyInit keyType key))
      (AssocMap.remove keyType.isKeyEqual m key) := by
  have hget := h.get_eq hlaw key
  unfold hashmapGet at hget
  unfold hashmapRemove
  simp only [hget]
  cases hfound : AssocMap.get keyType.isKeyEqual m key with
  | none =>
      rw [AssocMap.remove_of_get_eq_none hfound]
      exact h
  | some found =>
      obtain ⟨k, hk, heq⟩ := AssocMap.mem_of_get hfound
      have hlen := h.distinct.length_remove hlaw.eqv hfound
      have hlt := h.length_lt
      -- the keys removed are those of the entry found
      have hother : ∀ {k' : K} {e : UInt64}, (k', e) ∈ m →
          (keyType.isKeyEqual key k' = false ↔ e ≠ found) := by
        intro k' e hmem
        constructor
        · rintro hne rfl
          have hpair := List.inj_on_of_nodup_map h.entries hmem hk rfl
          rw [(Prod.mk.inj hpair).1, heq] at hne
          cases hne
        · intro hne
          cases hkk : keyType.isKeyEqual key k' with
          | false => rfl
          | true =>
              have hget' := h.distinct.get_of_mem hlaw.eqv hmem hkk
              rw [hfound] at hget'
              exact absurd (Option.some.inj hget').symm hne
      have hbucket : hashmapLocateBucket hm (hmKeyInit keyType key) =
          (keyType.hashKey k).toNat % hm.bucketCount := by
        rw [← hlaw.hash key k heq]
        rfl
      refine ⟨h.pos, h.allocated, ?_, ?_, ?_, ?_, ?_, ?_, h.distinct.remove key⟩
      · show sizeSub hm.size 1 = _
        rw [sizeSub_of_le (h.size ▸ hlt) (by rw [h.size]; omega), h.size]
        omega
      · intro j e
        rw [entries_deattach]
        show _ ↔ ∃ k', _ ∧ _ % hm.bucketCount = j
        simp only [AssocMap.mem_remove]
        by_cases hj : j = hashmapLocateBucket hm (hmKeyInit keyType key)
        · rw [if_pos hj, (h.nodup j).mem_erase_iff, h.mem]
          constructor
          · rintro ⟨hne, k', hmem, hjk⟩
            exact ⟨k', ⟨hmem, (hother hmem).mpr hne⟩, hjk⟩
          · rintro ⟨k', ⟨hmem, hne⟩, hjk⟩
            exact ⟨(hother hmem).mp hne, k', hmem, hjk⟩
        · rw [if_neg hj, h.mem]
          constructor
          · rintro ⟨k', hmem, hjk⟩
            refine ⟨k', ⟨hmem, (hother hmem).mpr ?_⟩, hjk⟩
            rintro rfl
            have hpair := List.inj_on_of_nodup_map h.entries hmem hk rfl
            rw [hbucket, ← (Prod.mk.inj hpair).1, hjk] at hj
            exact hj rfl
          · rintro ⟨k', ⟨hmem, -⟩, hjk⟩
            exact ⟨k', hmem, hjk⟩
      · intro j
        rw [entries_deattach]
        split
        · exact (h.nodup j).erase _
        · exact h.nodup j
      · exact fun x hx => h.keys x (AssocMap.mem_remove.mp hx).1
      · exact h.entries.sublist (List.filter_sublist.map _)
      · exact fun x hx => h.object x (AssocMap.mem_remove.mp hx).1

/-! ## Insertion -/

/-- The insertion removes what is stored under the key and adds the entry. -/
theorem hashmapInsert_eq (hm : Hashmap K) (key : HmKey K) (entry : UInt64) :
    hashmapInsert keyType hm key entry =
      { hashmapRemove keyType hm key with
        keys := fun e => if e = entry then key else (hashmapRemove keyType hm key).keys e
        buckets := bucketAdd (hashmapRemove keyType hm key).buckets
          (hashmapLocateBucket hm key) entry
        size := sizeAdd (hashmapRemove keyType hm key).size 1 } := by
  unfold hashmapInsert hashmapRemove
  cases hashmapFindInBucket keyType hm (hashmapLocateBucket hm key) key <;> rfl

theorem bucketCount_remove (hm : Hashmap K) (key : HmKey K) :
    (hashmapRemove keyType hm key).bucketCount = hm.bucketCount := by
  simp only [hashmapRemove]
  split <;> rfl

theorem bucketCount_insert (hm : Hashmap K) (key : HmKey K) (entry : UInt64) :
    (hashmapInsert keyType hm key entry).bucketCount = hm.bucketCount := by
  rw [hashmapInsert_eq]
  exact bucketCount_remove hm key

theorem entries_add (hm hm' : Hashmap K) (i j : ℕ) (e : UInt64)
    (hadd : hm'.buckets = bucketAdd hm.buckets i e) :
    hm'.entries j = if j = i then hm.entries j ++ [e] else hm.entries j := by
  unfold Hashmap.entries
  rw [hadd, bucketAdd]
  by_cases hj : j = i <;> simp [hj]

/-- Adding an entry under a key that is not present. -/
theorem Represents.add (h : Represents keyType hm m) (hlaw : keyType.Lawful) {key : K}
    {entry : UInt64} (hkey : ∀ x ∈ m, keyType.isKeyEqual key x.1 = false)
    (hentry : ∀ x ∈ m, x.2 ≠ entry) (hobject : entry ≠ 0) :
    Represents keyType
      { hm with
        keys := fun e => if e = entry then hmKeyInit keyType key else hm.keys e
        buckets := bucketAdd hm.buckets (hashmapLocateBucket hm (hmKeyInit keyType key)) entry
        size := sizeAdd hm.size 1 } (m ++ [(key, entry)]) := by
  have hentries : ((m ++ [(key, entry)]).map Prod.snd).Nodup := by
    rw [List.map_append]
    refine List.Nodup.append h.entries (List.nodup_singleton _) ?_
    intro e he he'
    obtain ⟨x, hx, rfl⟩ := List.mem_map.mp he
    exact hentry x hx (by simpa using he')
  have hobjects : ∀ x ∈ m ++ [(key, entry)], x.2 ≠ 0 := by
    intro x hx
    rcases List.mem_append.mp hx with hx | hx
    · exact h.object x hx
    · rw [List.mem_singleton.mp hx]
      exact hobject
  have hlt := length_lt_of_objects hentries hobjects
  rw [List.length_append, List.length_singleton] at hlt
  have hnot : ∀ j, entry ∉ hm.entries j := by
    intro j hmem
    obtain ⟨k, hk, -⟩ := (h.mem j entry).mp hmem
    exact hentry _ hk rfl
  refine ⟨h.pos, h.allocated, ?_, ?_, ?_, ?_, hentries, hobjects, ?_⟩
  · show sizeAdd hm.size 1 = _
    rw [sizeAdd_of_lt (by rw [h.size]; exact hlt), h.size, List.length_append,
      List.length_singleton]
  · intro j e
    rw [entries_add hm _ _ j entry rfl]
    show _ ↔ ∃ k', _ ∧ _ % hm.bucketCount = j
    have hsplit : (∃ k', (k', e) ∈ m ++ [(key, entry)] ∧
          (keyType.hashKey k').toNat % hm.bucketCount = j) ↔
        (e ∈ hm.entries j ∨
          (e = entry ∧ hashmapLocateBucket hm (hmKeyInit keyType key) = j)) := by
      rw [h.mem]
      constructor
      · rintro ⟨k', hmem, hj⟩
        rcases List.mem_append.mp hmem with hmem | hmem
        · exact .inl ⟨k', hmem, hj⟩
        · obtain ⟨rfl, rfl⟩ := Prod.mk.inj (List.mem_singleton.mp hmem)
          exact .inr ⟨rfl, hj⟩
      · rintro (⟨k', hmem, hj⟩ | ⟨rfl, hj⟩)
        · exact ⟨k', List.mem_append_left _ hmem, hj⟩
        · exact ⟨key, List.mem_append_right _ (List.mem_singleton.mpr rfl), hj⟩
    rw [hsplit]
    split
    · rename_i hj
      simp [hj]
    · rename_i hj
      simp [Ne.symm hj]
  · intro j
    rw [entries_add hm _ _ j entry rfl]
    split
    · refine List.Nodup.append (h.nodup j) (List.nodup_singleton _) ?_
      intro e he he'
      rw [List.mem_singleton.mp he'] at he
      exact hnot j he
    · exact h.nodup j
  · intro x hx
    show (if x.2 = entry then _ else hm.keys x.2) = _
    rcases List.mem_append.mp hx with hx | hx
    · rw [if_neg (hentry x hx)]
      exact h.keys x hx
    · rw [List.mem_singleton.mp hx, if_pos rfl]
  · refine List.pairwise_append.mpr ⟨h.distinct, List.pairwise_singleton _ _, ?_⟩
    intro x hx y hy
    rw [List.mem_singleton.mp hy]
    exact hlaw.eqv.ne_symm (hkey x hx)

/-- **Insertion.** -/
theorem Represents.insert (h : Represents keyType hm m) (hlaw : keyType.Lawful) {key : K}
    {entry : UInt64} (hobject : entry ≠ 0)
    (hallowed : ∀ x ∈ m, x.2 = entry → keyType.isKeyEqual key x.1) :
    Represents keyType (hashmapInsert keyType hm (hmKeyInit keyType key) entry)
      (AssocMap.set keyType.isKeyEqual m key entry) := by
  have hkey : ∀ x ∈ AssocMap.remove keyType.isKeyEqual m key,
      keyType.isKeyEqual key x.1 = false := fun x hx => (AssocMap.mem_remove.mp hx).2
  have hentry : ∀ x ∈ AssocMap.remove keyType.isKeyEqual m key, x.2 ≠ entry := by
    intro x hx heq
    have hsame := hallowed x (AssocMap.mem_remove.mp hx).1 heq
    rw [hkey x hx] at hsame
    cases hsame
  have hadd := (h.remove hlaw key).add hlaw hkey hentry hobject
  have hbucket : hashmapLocateBucket (hashmapRemove keyType hm (hmKeyInit keyType key))
      (hmKeyInit keyType key) = hashmapLocateBucket hm (hmKeyInit keyType key) := by
    rw [hashmapLocateBucket, bucketCount_remove, hashmapLocateBucket]
  rw [hbucket] at hadd
  rw [hashmapInsert_eq]
  exact hadd

/-! ## Rehashing -/

theorem rehashBucket_eq (old : ℕ → Bucket) (hm : Hashmap K) (i : ℕ) :
    rehashBucket old hm i = ((old i).getD []).foldl rehashEntry hm := by
  unfold rehashBucket
  cases old i <;> rfl

/-- Relinking entries appends each to the bucket of its hash. -/
theorem foldl_rehashEntry (es : List UInt64) (hm : Hashmap K) :
    (es.foldl rehashEntry hm).bucketCount = hm.bucketCount ∧
    (es.foldl rehashEntry hm).size = hm.size ∧
    (es.foldl rehashEntry hm).keys = hm.keys ∧
    (es.foldl rehashEntry hm).allocated = hm.allocated ∧
    ∀ i, (es.foldl rehashEntry hm).entries i =
      hm.entries i ++ es.filter (fun e => hashmapLocateBucket hm (hm.keys e) = i) := by
  induction es generalizing hm with
  | nil => exact ⟨rfl, rfl, rfl, rfl, fun i => (List.append_nil _).symm⟩
  | cons e es ih =>
      obtain ⟨hcount, hsize, hkeys, halloc, hentries⟩ := ih (rehashEntry hm e)
      refine ⟨hcount, hsize, hkeys, halloc, fun i => ?_⟩
      rw [List.foldl_cons, hentries i, entries_add hm (rehashEntry hm e) _ i e rfl]
      show _ ++ es.filter (fun e' => hashmapLocateBucket hm (hm.keys e') = i) = _
      by_cases hi : hashmapLocateBucket hm (hm.keys e) = i
      · rw [if_pos hi.symm, List.filter_cons_of_pos (by simpa using hi), List.append_assoc]
        rfl
      · rw [if_neg (Ne.symm hi), List.filter_cons_of_neg (by simpa using hi)]

/-- The entries that a rehash relinks, in order. -/
def Hashmap.relinked (hm : Hashmap K) (oldCount : ℕ) : List UInt64 :=
  (List.range oldCount).flatMap hm.entries

/-- The new buckets before the relinking. -/
def Hashmap.emptied (hm : Hashmap K) : Hashmap K :=
  { hm with
    bucketCount := sizeMul hm.bucketCount 2
    buckets := fun _ => none
    allocated := sizeMul 16 (sizeMul hm.bucketCount 2) }

theorem hashmapRehash_eq (hm : Hashmap K) :
    hashmapRehash hm =
      (hm.relinked (toInt hm.bucketCount).toNat).foldl rehashEntry hm.emptied := by
  have hbody : rehashBucket hm.buckets = fun (hm' : Hashmap K) i =>
      (hm.entries i).foldl rehashEntry hm' := by
    funext hm' i
    exact rehashBucket_eq hm.buckets hm' i
  rw [Hashmap.relinked, List.foldl_flatMap, ← hbody]
  rfl

/-- The entries relinked when every old bucket is visited. -/
theorem Represents.relinked (h : Represents keyType hm m) :
    (hm.relinked hm.bucketCount).Nodup ∧
      ∀ e, e ∈ hm.relinked hm.bucketCount ↔ ∃ k, (k, e) ∈ m := by
  constructor
  · refine List.nodup_flatMap.mpr ⟨fun i _ => h.nodup i, ?_⟩
    refine List.nodup_range.imp ?_
    intro i j hij e hi hj
    exact hij ((h.bucket_eq hi).symm.trans (h.bucket_eq hj))
  · intro e
    unfold Hashmap.relinked
    rw [List.mem_flatMap]
    constructor
    · rintro ⟨i, -, hi⟩
      obtain ⟨k, hk, -⟩ := (h.mem i e).mp hi
      exact ⟨k, hk⟩
    · rintro ⟨k, hk⟩
      exact ⟨_, List.mem_range.mpr (Nat.mod_lt _ h.pos), (h.mem _ e).mpr ⟨k, hk, rfl⟩⟩

theorem toInt_of_lt {n : ℕ} (h : n < 2 ^ 31) : (toInt n).toNat = n := by
  unfold toInt
  rw [Int.bmod_eq_of_le (by omega) (by omega)]
  rfl

/-- **Rehashing**, with few enough buckets for an `int`. -/
theorem Represents.rehash (h : Represents keyType hm m) (hfits : hm.bucketCount < 2 ^ 31) :
    Represents keyType (hashmapRehash hm) m ∧
      (hashmapRehash hm).bucketCount = 2 * hm.bucketCount := by
  obtain ⟨hnodup, hmem⟩ := h.relinked
  have hdouble : sizeMul hm.bucketCount 2 = 2 * hm.bucketCount := by
    unfold sizeMul
    omega
  have hbytes : sizeMul 16 (sizeMul hm.bucketCount 2) = 16 * (2 * hm.bucketCount) := by
    rw [hdouble]
    unfold sizeMul
    omega
  rw [hashmapRehash_eq, toInt_of_lt hfits]
  obtain ⟨hcount, hsize, hkeys, halloc, hentries⟩ :=
    foldl_rehashEntry (hm.relinked hm.bucketCount) hm.emptied
  have hnone : ∀ i, hm.emptied.entries i = [] := fun i => rfl
  have hcount' : hm.emptied.bucketCount = 2 * hm.bucketCount := hdouble
  refine ⟨⟨?_, ?_, hsize.trans h.size, ?_, ?_, ?_, h.entries, h.object, h.distinct⟩,
    hcount.trans hcount'⟩
  · rw [hcount, hcount']
    have := h.pos
    omega
  · rw [hcount, hcount', halloc]
    exact hbytes.ge
  · intro i e
    rw [hentries i, hnone, List.nil_append, List.mem_filter, hmem, hcount]
    simp only [decide_eq_true_eq]
    have hbucket : ∀ {k : K}, (k, e) ∈ m → hashmapLocateBucket hm.emptied (hm.emptied.keys e) =
        (keyType.hashKey k).toNat % hm.emptied.bucketCount := by
      intro k hk
      rw [hashmapLocateBucket, show hm.emptied.keys e = _ from h.keys _ hk]
      rfl
    constructor
    · rintro ⟨⟨k, hk⟩, hi⟩
      exact ⟨k, hk, (hbucket hk).symm.trans hi⟩
    · rintro ⟨k, hk, hi⟩
      exact ⟨⟨k, hk⟩, (hbucket hk).trans hi⟩
  · intro i
    rw [hentries i, hnone, List.nil_append]
    exact hnodup.filter _
  · intro x hx
    rw [hkeys]
    exact h.keys x hx

/-- A map that is found full is full. -/
theorem Represents.load_of_isFull (h : Represents keyType hm m) (hfull : hashmapIsFull hm) :
    80 ≤ m.length * 100 / hm.bucketCount := by
  unfold hashmapIsFull at hfull
  have hge : 80 ≤ sizeMul hm.size 100 / hm.bucketCount := by simpa using hfull
  rw [h.size] at hge
  exact hge.trans (Nat.div_le_div_right (Nat.mod_le _ _))

/-- Conversely, if the product does not wrap around. -/
theorem Represents.isFull_of_load (h : Represents keyType hm m)
    (hfits : m.length * 100 < 2 ^ 64) (hload : 80 ≤ m.length * 100 / hm.bucketCount) :
    hashmapIsFull hm := by
  unfold hashmapIsFull
  have hmul : sizeMul hm.size 100 = m.length * 100 := by
    rw [h.size]
    exact Nat.mod_eq_of_lt hfits
  rw [hmul]
  simpa using hload

/-! ## Every run without a rehash at `2 ^ 31` buckets -/

/-- The invariant of the sessions: the map is represented and not full. -/
structure SessionInv (keyType : HmKeyType K) (s : HashmapSession K) : Prop where
  represents : Represents keyType s.hm s.stored
  load : s.stored.length * 100 < 80 * s.hm.bucketCount

theorem sessionInv_start {n : ℕ} (hn : 0 < n) (hbytes : 16 * n < 2 ^ 64)
    (keys : UInt64 → HmKey K) : SessionInv keyType (hashmapStart n keys) :=
  ⟨represents_start hn hbytes keys, by show 0 * 100 < 80 * n; omega⟩

/-- One more key at most. -/
theorem length_set_le (m : List (K × UInt64)) (key : K) (entry : UInt64) :
    (AssocMap.set keyType.isKeyEqual m key entry).length ≤ m.length + 1 := by
  rw [AssocMap.set, List.length_append, List.length_singleton]
  exact Nat.succ_le_succ (List.length_filter_le _ _)

/-- **A set.**  It leads to a map that is represented and not full, and its rehash changes
no answer. -/
theorem Represents.set (h : Represents keyType hm m) (hlaw : keyType.Lawful) {key : K}
    {entry : UInt64} (hload : m.length * 100 < 80 * hm.bucketCount) (hobject : entry ≠ 0)
    (hallowed : ∀ x ∈ m, x.2 = entry → keyType.isKeyEqual key x.1)
    (hfits : 80 ≤ (AssocMap.set keyType.isKeyEqual m key entry).length * 100 / hm.bucketCount →
      hm.bucketCount < 2 ^ 31) :
    Represents keyType (hashmapSet keyType hm (hmKeyInit keyType key) entry)
        (AssocMap.set keyType.isKeyEqual m key entry) ∧
      (AssocMap.set keyType.isKeyEqual m key entry).length * 100 <
        80 * (hashmapSet keyType hm (hmKeyInit keyType key) entry).bucketCount := by
  have hins := h.insert hlaw hobject hallowed
  have hcount : (hashmapInsert keyType hm (hmKeyInit keyType key) entry).bucketCount =
      hm.bucketCount := bucketCount_insert hm _ entry
  have hlen : (AssocMap.set keyType.isKeyEqual m key entry).length ≤ m.length + 1 :=
    length_set_le m key entry
  have hpos := h.pos
  set stored := AssocMap.set keyType.isKeyEqual m key entry with hstored
  set hm' := hashmapInsert keyType hm (hmKeyInit keyType key) entry with hhm'
  rw [← hcount] at hfits
  have hset : hashmapSet keyType hm (hmKeyInit keyType key) entry =
      if hashmapIsFull hm' then hashmapRehash hm' else hm' := rfl
  rw [hset]
  split
  · rename_i hyes
    have hsmall := hfits (hins.load_of_isFull hyes)
    obtain ⟨hrep, hdouble⟩ := hins.rehash hsmall
    refine ⟨hrep, ?_⟩
    rw [hdouble, hcount]
    -- one bucket is not full only when it is empty
    rcases Nat.lt_or_ge hm.bucketCount 2 with hone | hmore
    · have hempty : m.length = 0 := by omega
      omega
    · omega
  · rename_i hno
    refine ⟨hins, ?_⟩
    by_contra hge
    have hload' : 80 ≤ stored.length * 100 / hm'.bucketCount :=
      (Nat.le_div_iff_mul_le hins.pos).mpr (by omega)
    -- the map is not full in `size_t`, and with so few buckets the product does not wrap
    have hsmall := hfits hload'
    exact hno (hins.isFull_of_load (by omega) hload')

/-- **One call.** -/
theorem SessionInv.step (hlaw : keyType.Lawful) {s : HashmapSession K} (h : SessionInv keyType s)
    (op : HashmapOp K) (hallowed : op.Allowed keyType s) (hfits : op.RehashFits keyType s) :
    SessionInv keyType (hashmapStep keyType s op) := by
  cases op with
  | set key entry =>
      obtain ⟨hrep, hload⟩ := h.represents.set hlaw h.load hallowed.1 hallowed.2 hfits
      exact ⟨hrep, hload⟩
  | get key => exact h
  | remove key =>
      refine ⟨h.represents.remove hlaw key, ?_⟩
      show (AssocMap.remove keyType.isKeyEqual s.stored key).length * 100 <
        80 * (hashmapRemove keyType s.hm (hmKeyInit keyType key)).bucketCount
      have hlen : (AssocMap.remove keyType.isKeyEqual s.stored key).length ≤ s.stored.length :=
        List.length_filter_le _ _
      have hload := h.load
      rw [bucketCount_remove]
      omega

/-- A call that leads to a represented map which is not full is correct. -/
theorem SessionInv.correct (hlaw : keyType.Lawful) {s : HashmapSession K}
    (h : SessionInv keyType s) (op : HashmapOp K) (hallowed : op.Allowed keyType s)
    (h' : SessionInv keyType (hashmapStep keyType s op)) : op.Correct keyType s where
  get := fun key => h'.represents.get_eq hlaw key
  size := h'.represents.size
  distinct := h'.represents.distinct
  allocated := h'.represents.allocated
  load := fun key entry _ => by
    rw [Nat.div_lt_iff_lt_mul h'.represents.pos, h'.represents.size]
    exact h'.load
  rehash := by
    rintro key entry rfl key'
    rw [h'.represents.get_eq hlaw,
      (h.represents.insert hlaw hallowed.1 hallowed.2).get_eq hlaw]
    rfl

/-- A key type that compares for equality. -/
theorem HmKeyType.lawful_of_eq (heq : ∀ a b, keyType.isKeyEqual a b ↔ a = b) :
    keyType.Lawful where
  eqv :=
    { refl := fun a => (heq a a).mpr rfl
      symm := fun a b hab => (heq b a).mpr ((heq a b).mp hab).symm
      trans := fun a b c hab hbc => (heq a c).mpr (((heq a b).mp hab).trans ((heq b c).mp hbc)) }
  hash := fun a b hab => congrArg keyType.hashKey ((heq a b).mp hab)

theorem intKeyType_lawful : intKeyType.Lawful := HmKeyType.lawful_of_eq (fun _ _ => beq_iff_eq)

theorem rangeKeyType_lawful : rangeKeyType.Lawful :=
  HmKeyType.lawful_of_eq (fun _ _ => beq_iff_eq)

theorem ptrKeyType_lawful : ptrKeyType.Lawful := HmKeyType.lawful_of_eq (fun _ _ => beq_iff_eq)

/-- **The hash map is a finite map.**  In every run of allowed calls in which a set that
brings the map to four entries for five buckets happens below `2 ^ 31` buckets, every
call is correct. -/
theorem hashmap_run_correct (keyType : HmKeyType K) (hlaw : keyType.Lawful) (n : ℕ) (hn : 1 ≤ n)
    (hbytes : 16 * n < 2 ^ 64) (keys : UInt64 → HmKey K) (ops : List (HashmapOp K))
    (hallowed : EveryStep (hashmapStep keyType) (fun s op => op.Allowed keyType s)
      (hashmapStart n keys) ops)
    (hfits : EveryStep (hashmapStep keyType) (fun s op => op.RehashFits keyType s)
      (hashmapStart n keys) ops) :
    EveryStep (hashmapStep keyType) (fun s op => op.Correct keyType s)
      (hashmapStart n keys) ops := by
  refine everyStep_of_inv (I := SessionInv keyType) ?_ _ ops (sessionInv_start hn hbytes keys)
    ((everyStep_and _ ops).mpr ⟨hallowed, hfits⟩)
  rintro s op hs ⟨hop, hopfits⟩
  have hs' := hs.step hlaw op hop hopfits
  exact ⟨hs', hs.correct hlaw op hop hs'⟩

/-- Replacement, removal and two rehashes of a map that starts with one bucket. -/
theorem hashmap_run_correct_one_bucket :
    EveryStep (hashmapStep intKeyType) (fun s op => op.Correct intKeyType s)
      (hashmapStart 1 (fun _ => ⟨0, 0⟩))
      [.set 5 1, .set 7 2, .get 5, .set 5 3, .remove 7, .set (-1) 2] :=
  hashmap_run_correct intKeyType intKeyType_lawful 1 (by decide) (by decide) _ _
    (by decide) (by decide +kernel)

/-! ## A rehash at `2 ^ 31` buckets -/

/-- With `2 ^ 31` buckets the old count is negative and no bucket is visited. -/
theorem hashmapGet_rehash (hm : Hashmap K) (hcount : hm.bucketCount = 2 ^ 31) (key : HmKey K) :
    hashmapGet keyType (hashmapRehash hm) key = none := by
  rw [hashmapGet, hashmapFindInBucket_eq, hashmapRehash_eq, hcount]
  rfl

/-- The `int` keys from `0` on, each with an object of its own. -/
def countingSets (n : ℕ) : List (HashmapOp Int32) :=
  (List.range n).map (fun i => .set (Int32.ofNat i) (UInt64.ofNat (i + 1)))

/-- What they store. -/
def countingStored (n : ℕ) : List (Int32 × UInt64) :=
  (List.range n).map (fun i => (Int32.ofNat i, UInt64.ofNat (i + 1)))

theorem countingSets_succ (n : ℕ) : countingSets (n + 1) =
    countingSets n ++ [.set (Int32.ofNat n) (UInt64.ofNat (n + 1))] := by
  rw [countingSets, List.range_succ, List.map_append]
  rfl

theorem countingStored_succ (n : ℕ) : countingStored (n + 1) =
    countingStored n ++ [(Int32.ofNat n, UInt64.ofNat (n + 1))] := by
  rw [countingStored, List.range_succ, List.map_append]
  rfl

theorem mem_countingStored {n : ℕ} {x : Int32 × UInt64} (hx : x ∈ countingStored n) :
    ∃ i < n, x = (Int32.ofNat i, UInt64.ofNat (i + 1)) := by
  obtain ⟨i, hi, rfl⟩ := List.mem_map.mp hx
  exact ⟨i, List.mem_range.mp hi, rfl⟩

theorem length_countingStored (n : ℕ) : (countingStored n).length = n := by
  rw [countingStored, List.length_map, List.length_range]

/-- The next key is new. -/
theorem ofNat_not_stored {n : ℕ} (hn : n < 2 ^ 31) : ∀ x ∈ countingStored n,
    intKeyType.isKeyEqual (Int32.ofNat n) x.1 = false ∧ x.2 ≠ UInt64.ofNat (n + 1) := by
  intro x hx
  obtain ⟨i, hi, rfl⟩ := mem_countingStored hx
  constructor
  · apply beq_eq_false_iff_ne.mpr
    intro heq
    have hint := congrArg Int32.toInt heq
    rw [Int32.toInt_ofNat_of_lt hn, Int32.toInt_ofNat_of_lt (by omega)] at hint
    omega
  · intro heq
    have hnat := congrArg UInt64.toNat heq
    rw [UInt64.toNat_ofNat', UInt64.toNat_ofNat', Nat.mod_eq_of_lt (by omega),
      Nat.mod_eq_of_lt (by omega)] at hnat
    omega

theorem set_countingStored {n : ℕ} (hn : n < 2 ^ 31) :
    AssocMap.set intKeyType.isKeyEqual (countingStored n) (Int32.ofNat n) (UInt64.ofNat (n + 1)) =
      countingStored (n + 1) := by
  rw [AssocMap.set, AssocMap.remove_of_get_eq_none, countingStored_succ]
  exact AssocMap.get_eq_none_iff.mpr (fun x hx => (ofNat_not_stored hn x hx).1)

/-- The next key may be set. -/
theorem countingSet_allowed {n : ℕ} (hn : n < 2 ^ 31) {s : HashmapSession Int32}
    (hs : s.stored = countingStored n) :
    (HashmapOp.set (Int32.ofNat n) (UInt64.ofNat (n + 1))).Allowed intKeyType s := by
  constructor
  · intro h0
    have hnat := congrArg UInt64.toNat h0
    rw [UInt64.toNat_ofNat', Nat.mod_eq_of_lt (by omega)] at hnat
    exact absurd hnat (by simp)
  · intro x hx heq
    rw [hs] at hx
    exact absurd heq (ofNat_not_stored hn x hx).2

/-- Up to four entries for five buckets the sets only insert. -/
theorem countingSets_state {n : ℕ} (hn : n * 100 < 80 * 2 ^ 31) (keys : UInt64 → HmKey Int32) :
    EveryStep (hashmapStep intKeyType) (fun s op => op.Allowed intKeyType s)
        (hashmapStart (2 ^ 31) keys) (countingSets n) ∧
      SessionInv intKeyType
        ((countingSets n).foldl (hashmapStep intKeyType) (hashmapStart (2 ^ 31) keys)) ∧
      ((countingSets n).foldl (hashmapStep intKeyType) (hashmapStart (2 ^ 31) keys)).stored =
        countingStored n ∧
      ((countingSets n).foldl (hashmapStep intKeyType)
        (hashmapStart (2 ^ 31) keys)).hm.bucketCount = 2 ^ 31 := by
  induction n with
  | zero => exact ⟨trivial, sessionInv_start (by decide) (by decide) keys, rfl, rfl⟩
  | succ n ih =>
      obtain ⟨hallowed, hinv, hstored, hcount⟩ := ih (by omega)
      rw [countingSets_succ, everyStep_append, List.foldl_append]
      set s := (countingSets n).foldl (hashmapStep intKeyType) (hashmapStart (2 ^ 31) keys)
      have hset := set_countingStored (n := n) (by omega)
      have hop := countingSet_allowed (n := n) (by omega) hstored
      have hnotfull : ¬ 80 ≤ (countingStored (n + 1)).length * 100 / 2 ^ 31 := by
        rw [length_countingStored]
        omega
      have hfits : (HashmapOp.set (Int32.ofNat n) (UInt64.ofNat (n + 1))).RehashFits
          intKeyType s := by
        intro hfull
        rw [hstored, hset, hcount] at hfull
        exact absurd hfull hnotfull
      have hins := hinv.represents.insert intKeyType_lawful hop.1 hop.2
      rw [hstored, hset] at hins
      refine ⟨⟨hallowed, hop, trivial⟩, hinv.step intKeyType_lawful _ hop hfits, ?_, ?_⟩
      · show AssocMap.set intKeyType.isKeyEqual s.stored _ _ = _
        rw [hstored, hset]
      · show (hashmapSet intKeyType s.hm _ _).bucketCount = _
        rw [hashmapSet, if_neg, bucketCount_insert, hcount]
        intro hfull
        have hload := hins.load_of_isFull hfull
        rw [bucketCount_insert, hcount] at hload
        exact hnotfull hload

/-- The set that fills four of five buckets is not correct: it rehashes, and the key `0`
is not found any more. -/
theorem countingSets_not_correct {n : ℕ} (hn : n * 100 < 80 * 2 ^ 31)
    (hn' : 80 * 2 ^ 31 ≤ (n + 1) * 100) (keys : UInt64 → HmKey Int32) :
    EveryStep (hashmapStep intKeyType) (fun s op => op.Allowed intKeyType s)
        (hashmapStart (2 ^ 31) keys) (countingSets (n + 1)) ∧
      ¬ EveryStep (hashmapStep intKeyType) (fun s op => op.Correct intKeyType s)
        (hashmapStart (2 ^ 31) keys) (countingSets (n + 1)) := by
  obtain ⟨hallowed, hinv, hstored, hcount⟩ := countingSets_state hn keys
  rw [countingSets_succ, everyStep_append, everyStep_append]
  set s := (countingSets n).foldl (hashmapStep intKeyType) (hashmapStart (2 ^ 31) keys)
  have hset := set_countingStored (n := n) (by omega)
  have hop := countingSet_allowed (n := n) (by omega) hstored
  refine ⟨⟨hallowed, hop, trivial⟩, ?_⟩
  rintro ⟨-, hcorrect, -⟩
  have hins := hinv.represents.insert intKeyType_lawful hop.1 hop.2
  rw [hstored, hset] at hins
  have hfull := hins.isFull_of_load (by rw [length_countingStored]; omega) (by
    rw [length_countingStored, bucketCount_insert, hcount]
    omega)
  have hgone : hashmapGet intKeyType (hashmapStep intKeyType s
      (.set (Int32.ofNat n) (UInt64.ofNat (n + 1)))).hm (hmKeyInit intKeyType 0) = none := by
    show hashmapGet intKeyType (hashmapSet intKeyType s.hm _ _) _ = none
    rw [hashmapSet, if_pos hfull]
    exact hashmapGet_rehash _ (by rw [bucketCount_insert, hcount]) _
  have hstored' : (hashmapStep intKeyType s
      (.set (Int32.ofNat n) (UInt64.ofNat (n + 1)))).stored = countingStored (n + 1) := by
    show AssocMap.set intKeyType.isKeyEqual s.stored _ _ = _
    rw [hstored, hset]
  have hmem : ((0 : Int32), (1 : UInt64)) ∈ countingStored (n + 1) :=
    List.mem_map.mpr ⟨0, List.mem_range.mpr (by omega), rfl⟩
  have hpresent := hins.distinct.get_of_mem intKeyType_lawful.eqv hmem
    (intKeyType_lawful.eqv.refl 0)
  have hget := hcorrect.get 0
  rw [hgone, hstored', hpresent] at hget
  cases hget

/-- **The hash map forgets its entries.**  With `2 ^ 31` buckets, the set of the key
`1717986918` rehashes, and no key is found any more. -/
theorem hashmap_rehash_loses_entries :
    EveryStep (hashmapStep intKeyType) (fun s op => op.Allowed intKeyType s)
        (hashmapStart (2 ^ 31) (fun _ => ⟨0, 0⟩)) (countingSets 1717986919) ∧
      ¬ EveryStep (hashmapStep intKeyType) (fun s op => op.Correct intKeyType s)
        (hashmapStart (2 ^ 31) (fun _ => ⟨0, 0⟩)) (countingSets 1717986919) :=
  countingSets_not_correct (n := 1717986918) (by decide) (by decide) _

end Proofs

