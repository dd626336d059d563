/-
# Iterating over a hash map (`hashmap.c`)

An iterator holds the index of a bucket and a pointer into its circular list: to the
head of the list or to the links of an entry.  Both the test for the end and the step
first move the iterator to the next bucket that is not empty.

* `HashmapIterates` : the loop over the entries ends and returns each stored entry
  exactly once;
* `hashmap_iterates_iff` : in every run this is so exactly when the bucket 0 has been
  used, since `hashmap_it_end` reads through a null pointer otherwise.
-/
import MCompiler.HashmapRefinement

open Runs

/-! ## The iterator -/

/-- A `struct list_head *`: null, the head of a bucket's list, or the links of the entry
with an index in it. -/
inductive ListPos where
  | null
  | head (bucket : ℕ)
  | entry (bucket index : ℕ)
  deriving DecidableEq, Repr

/-- `struct hashmap_it`, without the pointer to the map. -/
structure HashmapIt where
  bucket : ℕ
  bucketPos : ListPos
  deriving DecidableEq, Repr

section Iterators

variable {K : Type} (hm : Hashmap K)

/-- The place of the index `i` in the list of a bucket: after the last entry comes the
head again. -/
def linkAt (bucket : ℕ) (entries : List UInt64) (i : ℕ) : ListPos :=
  if i < entries.length then .entry bucket i else .head bucket

/-- `pos->next`; `none` for the null pointer.  A zeroed list head has a null `next`. -/
def listNext : ListPos → Option ListPos
  | .null => none
  | .head bucket =>
      match hm.buckets bucket with
      | none => some .null
      | some entries => some (linkAt bucket entries 0)
  | .entry bucket i => some (linkAt bucket (hm.entries bucket) (i + 1))

/-- `hashmap_it_init`. -/
def hashmapItInit : Option HashmapIt := (listNext hm (.head 0)).map (fun pos => ⟨0, pos⟩)

/-- `_hashmap_it_bucketEnd`. -/
def hashmapItBucketEnd (it : HashmapIt) : Option Bool :=
  if it.bucket ≥ hm.bucketCount then some true
  else (listNext hm it.bucketPos).map
    (fun next => next = .null || it.bucketPos = .head it.bucket)

/-- The loop of `_hashmap_it_findNonEmptyBucket`, with `left` buckets left. -/
def findNonEmptyLoop : ℕ → HashmapIt → Option HashmapIt
  | 0, it => some it
  | left + 1, it => do
      let pos ← listNext hm (.head it.bucket)
      let it : HashmapIt := { it with bucketPos := pos }
      let atEnd ← if pos = .null then some true else hashmapItBucketEnd hm it
      if atEnd then findNonEmptyLoop left { it with bucket := it.bucket + 1 } else some it

/-- `_hashmap_it_findNonEmptyBucket`. -/
def hashmapItFindNonEmptyBucket (it : HashmapIt) : Option HashmapIt :=
  let it : HashmapIt := { it with bucket := it.bucket + 1 }
  findNonEmptyLoop hm (hm.bucketCount - it.bucket) it

/-- `hashmap_it_end`, with the iterator it leaves. -/
def hashmapItEnd (it : HashmapIt) : Option (Bool × HashmapIt) := do
  let bucketEnd ← hashmapItBucketEnd hm it
  let it ← (if bucketEnd then hashmapItFindNonEmptyBucket hm it else some it)
  let atEnd ← hashmapItBucketEnd hm it
  some (atEnd, it)

/-- `hashmap_it_next`; its assertion moves the iterator, too. -/
def hashmapItNext (it : HashmapIt) : Option HashmapIt := do
  let (atEnd, it) ← hashmapItEnd hm it
  if atEnd then none
  else
    let bucketEnd ← hashmapItBucketEnd hm it
    if bucketEnd then hashmapItFindNonEmptyBucket hm it
    else (listNext hm it.bucketPos).map (fun pos => { it with bucketPos := pos })

/-- `hashmap_it_get`. -/
def hashmapItGet (it : HashmapIt) : Option UInt64 := do
  let bucketEnd ← hashmapItBucketEnd hm it
  if bucketEnd then none
  else
    match it.bucketPos with
    | .entry bucket i => (hm.entries bucket)[i]?
    | _ => none

/-- The loop over the entries from an iterator on; `none` where it stops or takes more
than `fuel` passes. -/
def hashmapLoop : ℕ → HashmapIt → Option (List UInt64)
  | 0, _ => none
  | fuel + 1, it => do
      let (atEnd, it) ← hashmapItEnd hm it
      if atEnd then some []
      else
        let entry ← hashmapItGet hm it
        let it ← hashmapItNext hm it
        let entries ← hashmapLoop fuel it
        some (entry :: entries)

/-- `for (it = hashmap_it_init(hm); !hashmap_it_end(&it); hashmap_it_next(&it))`. -/
def hashmapIterate (fuel : ℕ) : Option (List UInt64) := (hashmapItInit hm).bind (hashmapLoop hm fuel)

/-- **The loop is complete**: it ends, and returns the entries stored in some order. -/
def HashmapIterates (stored : List (K × UInt64)) : Prop :=
  ∃ fuel entries, hashmapIterate hm fuel = some entries ∧ entries.Perm (stored.map Prod.snd)

end Iterators

/-! ## The entries still to come -/

section Proofs

variable {K : Type} {keyType : HmKeyType K} {hm : Hashmap K}

/-- The entries of the buckets from `bucket` on. -/
def Hashmap.entriesFrom (hm : Hashmap K) (bucket : ℕ) : List UInt64 :=
  (List.range' bucket (hm.bucketCount - bucket)).flatMap hm.entries

/-- The iterator stands in the list of a bucket, before the entries `es`. -/
structure ItIn (hm : Hashmap K) (it : HashmapIt) (entries : List UInt64) (i : ℕ)
    (es : List UInt64) : Prop where
  lt : it.bucket < hm.bucketCount
  used : hm.buckets it.bucket = some entries
  pos : it.bucketPos = linkAt it.bucket entries i
  rest : es = entries.drop i ++ hm.entriesFrom (it.bucket + 1)

/-- The iterator stands before the entries `es`, in a bucket or at the end. -/
def ItBefore (hm : Hashmap K) (it : HashmapIt) (es : List UInt64) : Prop :=
  (hm.bucketCount ≤ it.bucket ∧ es = []) ∨ ∃ entries i, ItIn hm it entries i es

/-- The iterator stands on the first of the entries `es`, or at the end. -/
def ItOn (hm : Hashmap K) (it : HashmapIt) (es : List UInt64) : Prop :=
  (hm.bucketCount ≤ it.bucket ∧ es = []) ∨
    ∃ entries i, ItIn hm it entries i es ∧ i < entries.length

theorem ItOn.before {it : HashmapIt} {es : List UInt64} (h : ItOn hm it es) : ItBefore hm it es := by
  rcases h with h | ⟨entries, i, h, -⟩
  · exact .inl h
  · exact .inr ⟨entries, i, h⟩

theorem Hashmap.entriesFrom_of_lt {b : ℕ} (hb : b < hm.bucketCount) :
    hm.entriesFrom b = hm.entries b ++ hm.entriesFrom (b + 1) := by
  have hcount : hm.bucketCount - b = hm.bucketCount - (b + 1) + 1 := by omega
  unfold Hashmap.entriesFrom
  rw [hcount, List.range'_succ, List.flatMap_cons]

theorem Hashmap.entriesFrom_of_ge {b : ℕ} (hb : hm.bucketCount ≤ b) : hm.entriesFrom b = [] := by
  unfold Hashmap.entriesFrom
  rw [Nat.sub_eq_zero_of_le hb]
  rfl

theorem Hashmap.entries_of_buckets {b : ℕ} {entries : List UInt64}
    (h : hm.buckets b = some entries) : hm.entries b = entries := by
  unfold Hashmap.entries
  rw [h]
  rfl

/-! ## Each function of the iterator -/

theorem linkAt_ne_null (b : ℕ) (entries : List UInt64) (i : ℕ) : linkAt b entries i ≠ .null := by
  unfold linkAt
  split <;> simp

theorem linkAt_eq_head_iff {b : ℕ} {entries : List UInt64} {i : ℕ} :
    linkAt b entries i = .head b ↔ entries.length ≤ i := by
  unfold linkAt
  split <;> simp <;> omega

theorem listNext_head_of_none {b : ℕ} (h : hm.buckets b = none) :
    listNext hm (.head b) = some .null := by
  simp [listNext, h]

theorem listNext_head_of_some {b : ℕ} {entries : List UInt64} (h : hm.buckets b = some entries) :
    listNext hm (.head b) = some (linkAt b entries 0) := by
  simp [listNext, h]

/-- From a place in the list to the next one; from the head back to the first entry. -/
theorem ItIn.listNext_eq {it : HashmapIt} {entries es : List UInt64} {i : ℕ}
    (h : ItIn hm it entries i es) : listNext hm it.bucketPos =
      some (linkAt it.bucket entries (if i < entries.length then i + 1 else 0)) := by
  rw [h.pos, linkAt]
  split
  · rw [listNext, Hashmap.entries_of_buckets h.used]
  · exact listNext_head_of_some h.used

/-- In a bucket that has been used the test for its end reads no null pointer. -/
theorem ItIn.bucketEnd {it : HashmapIt} {entries es : List UInt64} {i : ℕ}
    (h : ItIn hm it entries i es) :
    hashmapItBucketEnd hm it = some (decide (entries.length ≤ i)) := by
  unfold hashmapItBucketEnd
  rw [if_neg (Nat.not_le.mpr h.lt), h.listNext_eq, h.pos]
  simp [linkAt_ne_null, linkAt_eq_head_iff]

theorem bucketEnd_of_ge {it : HashmapIt} (h : hm.bucketCount ≤ it.bucket) :
    hashmapItBucketEnd hm it = some true := if_pos h

/-- **The search for a bucket that is not empty** steps over the buckets that have not
been used, and over those that are empty again. -/
theorem findNonEmptyLoop_spec (hm : Hashmap K) (left : ℕ) (it : HashmapIt)
    (hleft : left = hm.bucketCount - it.bucket) :
    ∃ it', findNonEmptyLoop hm left it = some it' ∧ ItOn hm it' (hm.entriesFrom it.bucket) := by
  induction left generalizing it with
  | zero =>
      have hge : hm.bucketCount ≤ it.bucket := by omega
      exact ⟨it, rfl, .inl ⟨hge, Hashmap.entriesFrom_of_ge hge⟩⟩
  | succ left ih =>
      have hlt : it.bucket < hm.bucketCount := by omega
      have hskip : ∀ pos, ∃ it', findNonEmptyLoop hm left ⟨it.bucket + 1, pos⟩ = some it' ∧
          ItOn hm it' (hm.entriesFrom (it.bucket + 1)) := fun pos => ih _ (by simp only; omega)
      rw [Hashmap.entriesFrom_of_lt hlt]
      unfold findNonEmptyLoop
      cases hused : hm.buckets it.bucket with
      | none =>
          have hnone : hm.entries it.bucket = [] := by simp [Hashmap.entries, hused]
          rw [listNext_head_of_none hused, hnone, List.nil_append]
          exact hskip .null
      | some entries =>
          have hin : ItIn hm ⟨it.bucket, linkAt it.bucket entries 0⟩ entries 0
              (hm.entries it.bucket ++ hm.entriesFrom (it.bucket + 1)) :=
            ⟨hlt, hused, rfl, by rw [Hashmap.entries_of_buckets hused, List.drop_zero]⟩
          have hend := hin.bucketEnd
          rw [listNext_head_of_some hused, Option.bind_eq_bind, Option.bind_some]
          dsimp only
          rw [if_neg (linkAt_ne_null _ _ _), hend, Option.bind_eq_bind, Option.bind_some]
          cases entries with
          | nil =>
              rw [Hashmap.entries_of_buckets hused, List.nil_append]
              exact hskip _
          | cons e entries => exact ⟨_, rfl, .inr ⟨_, _, hin, Nat.succ_pos _⟩⟩

/-- On an entry the bucket is not at its end. -/
theorem ItOn.bucketEnd {it : HashmapIt} {es : List UInt64} (h : ItOn hm it es) :
    hashmapItBucketEnd hm it = some es.isEmpty := by
  rcases h with ⟨hge, rfl⟩ | ⟨entries, i, hin, hi⟩
  · exact bucketEnd_of_ge hge
  · rw [hin.bucketEnd, hin.rest, List.drop_eq_getElem_cons hi]
    exact congrArg some (decide_eq_false (Nat.not_le.mpr hi))

/-- **The test for the end** leaves the iterator on the next entry, if there is one. -/
theorem ItBefore.itEnd {it : HashmapIt} {es : List UInt64} (h : ItBefore hm it es) :
    ∃ it', hashmapItEnd hm it = some (es.isEmpty, it') ∧ ItOn hm it' es := by
  -- the iterator is on an entry already, or moves to the buckets after its own
  have hmove : ∃ bucketEnd it', hashmapItBucketEnd hm it = some bucketEnd ∧
      (if bucketEnd then hashmapItFindNonEmptyBucket hm it else some it) = some it' ∧
      ItOn hm it' es := by
    obtain ⟨next, hloop, hnext⟩ := findNonEmptyLoop_spec hm _
      { it with bucket := it.bucket + 1 } rfl
    rcases h with ⟨hge, rfl⟩ | ⟨entries, i, hin⟩
    · refine ⟨true, next, bucketEnd_of_ge hge, hloop, ?_⟩
      rwa [Hashmap.entriesFrom_of_ge (by simp only; omega)] at hnext
    · by_cases hi : i < entries.length
      · have hon : ItOn hm it es := .inr ⟨entries, i, hin, hi⟩
        refine ⟨false, it, ?_, rfl, hon⟩
        rw [hin.bucketEnd, decide_eq_false (Nat.not_le.mpr hi)]
      · refine ⟨true, next, ?_, hloop, ?_⟩
        · rw [hin.bucketEnd, decide_eq_true (Nat.not_lt.mp hi)]
        · rwa [hin.rest, List.drop_eq_nil_of_le (Nat.not_lt.mp hi)]
  obtain ⟨bucketEnd, it', hend, hmove, hon⟩ := hmove
  refine ⟨it', ?_, hon⟩
  unfold hashmapItEnd
  rw [hend, Option.bind_eq_bind, Option.bind_some, hmove, Option.bind_eq_bind, Option.bind_some,
    hon.bucketEnd]
  rfl

/-- **The entry** that the iterator stands on. -/
theorem ItOn.get {it : HashmapIt} {e : UInt64} {es : List UInt64} (h : ItOn hm it (e :: es)) :
    hashmapItGet hm it = some e := by
  have hend := h.bucketEnd
  rcases h with ⟨-, hnil⟩ | ⟨entries, i, hin, hi⟩
  · cases hnil
  · have hrest := hin.rest
    rw [List.drop_eq_getElem_cons hi, List.cons_append] at hrest
    unfold hashmapItGet
    rw [hend, Option.bind_eq_bind, Option.bind_some, hin.pos, linkAt, if_pos hi]
    show (hm.entries it.bucket)[i]? = some e
    rw [Hashmap.entries_of_buckets hin.used, List.getElem?_eq_getElem hi, (List.cons.inj hrest).1]

/-- **The step** to the entries after it. -/
theorem ItOn.next {it : HashmapIt} {e : UInt64} {es : List UInt64} (h : ItOn hm it (e :: es)) :
    ∃ it', hashmapItNext hm it = some it' ∧ ItBefore hm it' es := by
  -- the assertion finds the iterator on an entry, where it does not move
  obtain ⟨it₁, hend, hon⟩ := h.before.itEnd
  have hbucket := hon.bucketEnd
  rcases hon with ⟨-, hnil⟩ | ⟨entries, i, hin, hi⟩
  · cases hnil
  · have hrest := hin.rest
    rw [List.drop_eq_getElem_cons hi, List.cons_append] at hrest
    refine ⟨{ it₁ with bucketPos := linkAt it₁.bucket entries (i + 1) }, ?_,
      .inr ⟨entries, i + 1, hin.lt, hin.used, rfl, (List.cons.inj hrest).2⟩⟩
    unfold hashmapItNext
    rw [hend, Option.bind_eq_bind, Option.bind_some]
    show (hashmapItBucketEnd hm it₁).bind _ = _
    rw [hbucket, Option.bind_some, hin.listNext_eq, if_pos hi]
    rfl

/-! ## The loop -/

/-- **The loop** returns the entries still to come, in order. -/
theorem ItBefore.loop {it : HashmapIt} {es : List UInt64} (h : ItBefore hm it es) :
    hashmapLoop hm (es.length + 1) it = some es := by
  induction es generalizing it with
  | nil =>
      obtain ⟨it', hend, -⟩ := h.itEnd
      unfold hashmapLoop
      rw [hend]
      rfl
  | cons e es ih =>
      obtain ⟨it₁, hend, hon⟩ := h.itEnd
      obtain ⟨it₂, hnext, hbefore⟩ := hon.next
      unfold hashmapLoop
      rw [hend, Option.bind_eq_bind, Option.bind_some]
      show (hashmapItGet hm it₁).bind _ = _
      rw [hon.get, Option.bind_some, hnext]
      show (hashmapLoop hm (es.length + 1) it₂).bind _ = _
      rw [ih hbefore]
      rfl

theorem Hashmap.entriesFrom_zero : hm.entriesFrom 0 = hm.relinked hm.bucketCount := by
  rw [Hashmap.entriesFrom, Hashmap.relinked, Nat.sub_zero, List.range_eq_range']

/-- A loop over a map whose first bucket has been used goes through all the buckets. -/
theorem hashmapIterate_of_used {entries : List UInt64} (hpos : 0 < hm.bucketCount)
    (h : hm.buckets 0 = some entries) :
    hashmapIterate hm ((hm.relinked hm.bucketCount).length + 1) =
      some (hm.relinked hm.bucketCount) := by
  have hin : ItIn hm ⟨0, linkAt 0 entries 0⟩ entries 0 (hm.relinked hm.bucketCount) := by
    refine ⟨hpos, h, rfl, ?_⟩
    rw [← Hashmap.entriesFrom_zero, Hashmap.entriesFrom_of_lt hpos,
      Hashmap.entries_of_buckets h, List.drop_zero]
  unfold hashmapIterate hashmapItInit
  rw [listNext_head_of_some h]
  exact ItBefore.loop (.inr ⟨_, _, hin⟩)

/-- **A null pointer is read** by the first test for the end if the bucket `0` has not
been used. -/
theorem hashmapIterate_of_unused (hpos : 0 < hm.bucketCount) (h : hm.buckets 0 = none)
    (fuel : ℕ) : hashmapIterate hm fuel = none := by
  have hend : hashmapItEnd hm ⟨0, .null⟩ = none := by
    unfold hashmapItEnd hashmapItBucketEnd
    rw [if_neg (Nat.not_le.mpr hpos)]
    rfl
  unfold hashmapIterate hashmapItInit
  rw [listNext_head_of_none h]
  cases fuel with
  | zero => rfl
  | succ fuel =>
      show hashmapLoop hm (fuel + 1) ⟨0, .null⟩ = none
      unfold hashmapLoop
      rw [hend]
      rfl

/-- **One map**: the loop is complete exactly if the bucket `0` has been used. -/
theorem Represents.iterates_iff {m : List (K × UInt64)} (h : Represents keyType hm m) :
    HashmapIterates hm m ↔ hm.buckets 0 ≠ none := by
  constructor
  · rintro ⟨fuel, es, hrun, -⟩ hnone
    rw [hashmapIterate_of_unused h.pos hnone] at hrun
    cases hrun
  · intro hused
    obtain ⟨entries, hentries⟩ := Option.ne_none_iff_exists'.mp hused
    refine ⟨_, _, hashmapIterate_of_used h.pos hentries, ?_⟩
    obtain ⟨hnodup, hmem⟩ := h.relinked
    apply (List.perm_ext_iff_of_nodup hnodup h.entries).mpr
    intro e
    rw [hmem]
    simp

/-- **Iteration is complete exactly if the bucket `0` has been used.**  This holds of the
map that any run leads to in which a set that brings the map to four entries for five
buckets happens below `2 ^ 31` buckets. -/
theorem hashmap_iterates_iff (keyType : HmKeyType K) (hlaw : keyType.Lawful) (n : ℕ) (hn : 1 ≤ n)
    (hbytes : 16 * n < 2 ^ 64) (keys : UInt64 → HmKey K) (ops : List (HashmapOp K))
    (hallowed : EveryStep (hashmapStep keyType) (fun s op => op.Allowed keyType s)
      (hashmapStart n keys) ops)
    (hfits : EveryStep (hashmapStep keyType) (fun s op => op.RehashFits keyType s)
      (hashmapStart n keys) ops) :
    HashmapIterates (ops.foldl (hashmapStep keyType) (hashmapStart n keys)).hm
        (ops.foldl (hashmapStep keyType) (hashmapStart n keys)).stored ↔
      (ops.foldl (hashmapStep keyType) (hashmapStart n keys)).hm.buckets 0 ≠ none := by
  have hinv := foldl_of_everyStep (I := SessionInv keyType)
    (fun s op hs hop => hs.step hlaw op hop.1 hop.2) _ ops (sessionInv_start hn hbytes keys)
    ((everyStep_and _ ops).mpr ⟨hallowed, hfits⟩)
  exact hinv.represents.iterates_iff

/-- The bucket `0` of this map is empty again, the bucket `7` holds an entry, and the
others have not been used. -/
theorem hashmap_iterates_removed :
    HashmapIterates
      ([.set 200 1, .set 7 2, .remove 200].foldl (hashmapStep intKeyType)
        (hashmapStart 100 (fun _ => ⟨0, 0⟩))).hm
      ([.set 200 1, .set 7 2, .remove 200].foldl (hashmapStep intKeyType)
        (hashmapStart 100 (fun _ => ⟨0, 0⟩))).stored :=
  (hashmap_iterates_iff intKeyType intKeyType_lawful 100 (by decide) (by decide) _ _
    (by decide) (by decide +kernel)).mpr (by decide +kernel)

/-- **The loop reads a null pointer** in a map that holds the key `1` only. -/
theorem hashmap_iterates_fails :
    ¬ ∀ n : ℕ, 1 ≤ n → 16 * n < 2 ^ 64 → ∀ (keys : UInt64 → HmKey Int32)
      (ops : List (HashmapOp Int32)),
      EveryStep (hashmapStep intKeyType) (fun s op => op.Allowed intKeyType s)
          (hashmapStart n keys) ops →
        HashmapIterates (ops.foldl (hashmapStep intKeyType) (hashmapStart n keys)).hm
          (ops.foldl (hashmapStep intKeyType) (hashmapStart n keys)).stored := by
  intro hall
  obtain ⟨fuel, es, hrun, -⟩ := hall 100 (by decide) (by decide) (fun _ => ⟨0, 0⟩) [.set 1 1]
    (by decide)
  rw [hashmapIterate_of_unused (by decide) (by decide +kernel)] at hrun
  cases hrun

end Proofs
