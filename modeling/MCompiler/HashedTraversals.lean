/-
# The traversals with their hash tables

`_visit` of `dominators.c` keeps the numbers of the blocks in a hash map, `pre_visit`,
`function_dump` and `function_dumpDot` of `ir.c` the blocks visited in a hash set; the keys
are the addresses of the blocks.  `visit`, `preVisit` and `dumpVisit` say what they do on a
function and on a set; here are the same loops on the hash tables.  `BlockTable` relates a
table to the blocks that are in it.

* `traversals_hashed` : with fewer than `80 * 2 ^ 25` blocks they lead to the same results, where
  the buffers for the postorder, the levels and the texts have room.
-/
import MCompiler.DominatorsPostorder
import MCompiler.FunctionDump
import MCompiler.Hashset

open FlowGraph

/-! ## The tables -/

/-- `struct node_data`: the entry stands behind the number. -/
def nodeDataLayout : EntryLayout := ⟨56, 8⟩

/-- `hashmap_getPtr`. -/
def hashmapGetPtr (hm : Hashmap UInt64) (ptr : UInt64) : Option UInt64 :=
  hashmapGet ptrKeyType hm (hmKeyInit ptrKeyType ptr)

/-- `hashmap_setPtr`. -/
def hashmapSetPtr (hm : Hashmap UInt64) (ptr entry : UInt64) : Hashmap UInt64 :=
  hashmapSet ptrKeyType hm (hmKeyInit ptrKeyType ptr) entry

/-- What `_visit` changes of `struct dominators`, the numbers in the `node_data` of the
entries, and the postorder. -/
structure HashedVisit where
  nodeToNum : Hashmap UInt64
  allocator : ZoneAllocator
  number : UInt64 → ℤ
  postorder : List ℕ

/-- What `pre_visit` changes. -/
structure HashedPreVisit where
  hashset : Hashset UInt64
  dbuffer : List ℕ

/-- The set of the blocks visited, the next level and what the printing changes. -/
structure HashedDump (σ : Type) where
  visited : Hashset UInt64
  newVisit : List ℕ
  printed : σ

instance instDecidableChildsStored : DecidablePred (PointersStored 64) := fun _ =>
  decidable_of_iff _ (pointersStored_iff (show 2 ≤ 8 by decide) (by decide)).symm

section Traversals

-- the blocks that `dmalloc` returns, and the addresses of the basic blocks
variable (base : ℕ → ℕ) (addr : ℕ → UInt64) (ir : Ir)

/-- `_visit`; `znnew` does not initialise the number. -/
def visitHashed : ℕ → HashedVisit → ℕ → Option HashedVisit
  | 0, _, _ => none
  | fuel + 1, s, block =>
      match hashmapGetPtr s.nodeToNum (addr block) with
      | some _ => some s
      | none => do
          let (allocator, entry) ← znnewEntry base nodeDataLayout s.allocator
          let s ← (blockSuccessors ir block).foldlM (visitHashed fuel)
            { s with nodeToNum := hashmapSetPtr s.nodeToNum (addr block) entry
                     allocator := allocator }
          return { s with number := Function.update s.number entry (toInt s.postorder.length)
                          postorder := s.postorder ++ [block] }

/-- The number in the `node_data` of a block, which `dominators_getNumber` reads. -/
def HashedVisit.getNumber (s : HashedVisit) (block : ℕ) : Option ℤ :=
  (hashmapGetPtr s.nodeToNum (addr block)).map s.number

/-- `dominators_compute` from the allocation of `doms` on. -/
def dominatorsOfPostorder (fuel : ℕ) (s : VisitState) : Option Dominators := do
  let elementCount := s.postorder.length
  let doms := List.replicate elementCount sizeMax
  if elementCount = 0 then return ⟨[], doms, s.nodeToNum, s.postorder, elementCount⟩
  let doms := doms.set (elementCount - 1) (elementCount - 1)
  let doms ← dominatorsLoop ir s.nodeToNum s.postorder elementCount fuel fuel doms
  let domNodes := (List.range elementCount).map (fun i => ⟨i, []⟩)
  let domNodes ← (List.range elementCount).foldlM (pushChild doms) domNodes
  return ⟨domNodes, doms, s.nodeToNum, s.postorder, elementCount⟩

/-- `pre_visit`. -/
def preVisitHashed : ℕ → HashedPreVisit → ℕ → Option HashedPreVisit
  | 0, _, _ => none
  | fuel + 1, s, block =>
      if hashsetExistsPtr s.hashset (addr block) then some s
      else do
        let (hashset, _) ← hashsetInsertPtr base s.hashset (addr block)
        let s ← (blockSuccessors ir block).foldlM (preVisitHashed fuel)
          { s with hashset := hashset }
        return { s with dbuffer := s.dbuffer ++ [block] }

/-- The loop body of `function_dump` and `function_dumpDot` for a block of the level. -/
def dumpVisitHashed {σ : Type} (print : σ → ℕ → Option σ) (s : HashedDump σ) (block : ℕ) :
    Option (HashedDump σ) :=
  if hashsetExistsPtr s.visited (addr block) then some s
  else do
    let (visited, _) ← hashsetInsertPtr base s.visited (addr block)
    let printed ← print s.printed block
    return { visited := visited
             newVisit := s.newVisit ++ blockSuccessors ir block
             printed := printed }

/-- The loop over the levels. -/
def dumpLoopHashed {σ : Type} (print : σ → ℕ → Option σ) :
    ℕ → List ℕ → Hashset UInt64 → σ → Option σ
  | 0, _, _, _ => none
  | fuel + 1, toVisit, visited, printed =>
      if toVisit = [] then some printed
      else do
        let s ← toVisit.foldlM (dumpVisitHashed base addr ir print) ⟨visited, [], printed⟩
        guard (PointersStored 1000 s.newVisit.length)
        dumpLoopHashed print fuel s.newVisit s.visited s.printed

-- what is in the memory of the entries and headers at the start
variable (keys : UInt64 → HmKey UInt64) (next : ℕ → ℕ) (obtained : ℕ)

/-- `dominators_compute`.  The buffers for the postorder and for the children of a node only
grow, so that it is enough to look at them at the end. -/
def dominatorsComputeHashed (number : UInt64 → ℤ) (fuel entry : ℕ) : Option Dominators := do
  let s ← visitHashed base addr ir fuel
    ⟨hashmapInits 100 keys, zoneInit base next obtained, number, []⟩ entry
  guard (PointersStored 1000 s.postorder.length)
  let doms ← dominatorsOfPostorder ir fuel ⟨s.getNumber addr, s.postorder⟩
  guard (∀ node ∈ doms.domNodes, PointersStored 64 node.childs.length)
  return doms

/-- `block_computePostorder`. -/
def blockComputePostorderHashed (fuel entry : ℕ) : Option (List ℕ) := do
  let s ← preVisitHashed base addr ir fuel ⟨hashsetInit base keys next obtained, []⟩ entry
  guard (PointersStored 1000 s.dbuffer.length)
  return s.dbuffer

-- the names of the values, and what is printed with the blocks
variable (annotations : IrPrintAnnotations) (names : ValueNames)

/-- `function_dump`. -/
def functionDumpHashed (fuel entry : ℕ) : Option TextState :=
  dumpLoopHashed base addr ir (printBlock ir annotations) fuel [entry]
    (hashsetInit base keys next obtained) ⟨names, ⟨dbufferInitSize 1000, []⟩, []⟩

/-- `function_dumpDot`. -/
def functionDumpDotHashed (fuel entry : ℕ) : Option (DotState × List UInt8) := do
  let s ← dumpLoopHashed base addr ir (dotBlock ir annotations addr) fuel [entry]
    (hashsetInit base keys next obtained) (dotStart names)
  let result ← graphFinalize s.graph
  return (s, result)

end Traversals

/-! ## Tables of blocks -/

/-- What the hash tables rely on, for a table that gets its first zone as the block
`obtained`: the blocks have different addresses, there are not too many of them, and the
zones for their entries lie in the address space. -/
structure BlocksFit (base : ℕ → ℕ) (addr : ℕ → UInt64) (layout : EntryLayout) (obtained : ℕ)
    (blocks : List ℕ) : Prop where
  fresh : FreshBlocks base
  addresses : ∀ a ∈ blocks, ∀ b ∈ blocks, addr a = addr b → a = b
  few : blocks.length < 80 * 2 ^ 25
  memory : ZonesInMemory base layout obtained blocks.length

/-- The blocks `vis` are in the table, each with its entry. -/
structure BlockTable (base : ℕ → ℕ) (addr : ℕ → UInt64) (layout : EntryLayout) (obtained : ℕ)
    (blocks : List ℕ) (hm : Hashmap UInt64) (zone : ZoneAllocator) (vis : List (ℕ × UInt64)) :
    Prop where
  table : ZonedMap base ptrKeyType layout obtained vis.length hm zone
    (vis.map fun x => (addr x.1, x.2))
  mem : ∀ x ∈ vis, x.1 ∈ blocks

section Tables

variable {base : ℕ → ℕ} {addr : ℕ → UInt64} {layout : EntryLayout} {obtained : ℕ}
  {blocks : List ℕ} {hm : Hashmap UInt64} {zone : ZoneAllocator} {vis : List (ℕ × UInt64)}

theorem blockTable_init (keys : UInt64 → HmKey UInt64) (next : ℕ → ℕ) :
    BlockTable base addr layout obtained blocks (hashmapInits 100 keys)
      (zoneInit base next obtained) [] where
  table := zonedMap_init keys next obtained
  mem := fun x hx => by cases hx

/-- **A lookup** finds the entry of a block that is in the table. -/
theorem BlockTable.get_eq (hfit : BlocksFit base addr layout obtained blocks)
    (h : BlockTable base addr layout obtained blocks hm zone vis) {block : ℕ}
    (hblock : block ∈ blocks) : hashmapGetPtr hm (addr block) = vis.lookup block := by
  rw [hashmapGetPtr, h.table.represents.get_eq ptrKeyType_lawful]
  have hmem := h.mem
  clear h
  induction vis with
  | nil => rfl
  | cons x vis ih =>
      have hrest := ih fun y hy => hmem y (List.mem_cons_of_mem _ hy)
      have hsame : ptrKeyType.isKeyEqual (addr block) (addr x.1) = (block == x.1) := by
        rw [Bool.eq_iff_iff]
        show (addr block == addr x.1) ↔ _
        rw [beq_iff_eq, beq_iff_eq]
        exact ⟨hfit.addresses _ hblock _ (hmem x List.mem_cons_self), congrArg addr⟩
      unfold AssocMap.get at hrest ⊢
      rw [List.map_cons, List.find?_cons, List.lookup_cons, hsame]
      cases block == x.1 with
      | true => rfl
      | false => exact hrest

/-- The blocks in the table are different. -/
theorem BlockTable.nodup (h : BlockTable base addr layout obtained blocks hm zone vis) :
    (vis.map Prod.fst).Nodup := by
  have hdistinct := h.table.represents.distinct
  refine List.pairwise_map.mpr ((List.pairwise_map.mp hdistinct).imp ?_)
  intro x y hne hxy
  have hyes : ptrKeyType.isKeyEqual (addr x.1) (addr y.1) = true := by
    rw [hxy]
    exact beq_self_eq_true _
  rw [hyes] at hne
  cases hne

/-- Their entries are different, too. -/
theorem BlockTable.nodup_entries (h : BlockTable base addr layout obtained blocks hm zone vis) :
    (vis.map Prod.snd).Nodup := by
  have hnodup := h.table.represents.entries
  rw [List.map_map] at hnodup
  exact hnodup

/-- There is room for another block. -/
theorem BlockTable.length_lt (h : BlockTable base addr layout obtained blocks hm zone vis)
    {block : ℕ} (hblock : block ∈ blocks) (hnew : block ∉ vis.map Prod.fst) :
    vis.length < blocks.length := by
  have hnodup : (block :: vis.map Prod.fst).Nodup := List.nodup_cons.mpr ⟨hnew, h.nodup⟩
  have hsub : block :: vis.map Prod.fst ⊆ blocks := by
    refine List.cons_subset.mpr ⟨hblock, fun b hb => ?_⟩
    obtain ⟨x, hx, rfl⟩ := List.mem_map.mp hb
    exact h.mem x hx
  have hle := (hnodup.subperm hsub).length_le
  rwa [List.length_cons, List.length_map] at hle

/-- **A block that is not in the table** is added to it. -/
theorem BlockTable.add (hfit : BlocksFit base addr layout obtained blocks)
    (hlayout : layout.Fits) (h : BlockTable base addr layout obtained blocks hm zone vis)
    {block : ℕ} (hblock : block ∈ blocks) (hnew : block ∉ vis.map Prod.fst) :
    ∃ zone' entry, znnewEntry base layout zone = some (zone', entry) ∧
      entry ∉ vis.map Prod.snd ∧
      BlockTable base addr layout obtained blocks (hashmapSetPtr hm (addr block) entry) zone'
        (vis ++ [(block, entry)]) := by
  have hlt := h.length_lt hblock hnew
  have hlookup : vis.lookup block = none := by
    refine List.lookup_eq_none_iff.mpr fun x hx => ?_
    rw [bne_iff_ne]
    rintro rfl
    exact hnew (List.mem_map_of_mem hx)
  have hget : AssocMap.get ptrKeyType.isKeyEqual (vis.map fun x => (addr x.1, x.2)) (addr block) =
      none := by
    rw [← h.table.represents.get_eq ptrKeyType_lawful]
    exact (h.get_eq hfit hblock).trans hlookup
  obtain ⟨zone', entry, hznnew, hother, htable⟩ := h.table.add ptrKeyType_lawful hfit.fresh hlayout
    (fun k hk => hfit.memory k (hk.trans hlt)) hget (by
      rw [List.length_map]
      exact lt_of_le_of_lt hlt hfit.few)
  refine ⟨zone', entry, hznnew, ?_, ?_, ?_⟩
  · intro hentry
    obtain ⟨x, hx, rfl⟩ := List.mem_map.mp hentry
    exact hother _ (List.mem_map_of_mem hx) rfl
  · rw [List.length_append, List.length_singleton, List.map_append]
    exact htable
  · intro x hx
    rcases List.mem_append.mp hx with hx | hx
    · exact h.mem x hx
    · rw [List.mem_singleton.mp hx]
      exact hblock

/-! ## Sets of blocks -/

/-- A hash set of the blocks for which `visited` is true. -/
def BlockSet (base : ℕ → ℕ) (addr : ℕ → UInt64) (obtained : ℕ) (blocks : List ℕ)
    (hs : Hashset UInt64) (visited : ℕ → Bool) : Prop :=
  ∃ vis, BlockTable base addr bucketEntryLayout obtained blocks hs.hashmap hs.zone vis ∧
    ∀ b, visited b ↔ b ∈ vis.map Prod.fst

theorem blockSet_init (keys : UInt64 → HmKey UInt64) (next : ℕ → ℕ) :
    BlockSet base addr obtained blocks (hashsetInit base keys next obtained) fun _ => false :=
  ⟨[], blockTable_init keys next, fun b => by simp⟩

/-- A block is found if it is in the list. -/
theorem isSome_lookup_iff {block : ℕ} :
    (vis.lookup block).isSome ↔ block ∈ vis.map Prod.fst := by
  rw [Option.isSome_iff_ne_none, ne_eq, List.lookup_eq_none_iff, List.mem_map]
  push Not
  constructor
  · rintro ⟨x, hx, heq⟩
    exact ⟨x, hx, by simpa using Eq.symm (by simpa using heq)⟩
  · rintro ⟨x, hx, rfl⟩
    exact ⟨x, hx, by simp⟩

variable {hs : Hashset UInt64} {visited : ℕ → Bool}

theorem BlockSet.exists_eq (hfit : BlocksFit base addr bucketEntryLayout obtained blocks)
    (h : BlockSet base addr obtained blocks hs visited) {block : ℕ} (hblock : block ∈ blocks) :
    hashsetExistsPtr hs (addr block) = visited block := by
  obtain ⟨vis, htable, hvisited⟩ := h
  show (hashmapGetPtr hs.hashmap (addr block)).isSome = _
  rw [htable.get_eq hfit hblock, Bool.eq_iff_iff, hvisited, isSome_lookup_iff]

/-- **A block that has not been visited** is inserted. -/
theorem BlockSet.insert (hfit : BlocksFit base addr bucketEntryLayout obtained blocks)
    (h : BlockSet base addr obtained blocks hs visited) {block : ℕ} (hblock : block ∈ blocks)
    (hnew : visited block = false) :
    ∃ hs', hashsetInsertPtr base hs (addr block) = some (hs', true) ∧
      BlockSet base addr obtained blocks hs' (Function.update visited block true) := by
  have hexists := h.exists_eq hfit hblock
  rw [hnew] at hexists
  obtain ⟨vis, htable, hvisited⟩ := h
  have hnot : block ∉ vis.map Prod.fst := by
    rw [← hvisited, hnew]
    exact Bool.false_ne_true
  obtain ⟨zone', entry, hznnew, -, htable'⟩ :=
    htable.add hfit bucketEntryLayout_fits hblock hnot
  refine ⟨_, hashsetInsert_of_none (Option.not_isSome_iff_eq_none.mp ?_) hznnew,
    _, htable', fun b => ?_⟩
  · exact Bool.not_eq_true _ ▸ hexists
  · by_cases hb : b = block
    · subst hb
      simp
    · rw [Function.update_of_ne hb, hvisited]
      simp [hb]

end Tables

/-! ## The traversals with a hash set -/

section Sets

variable {base : ℕ → ℕ} {addr : ℕ → UInt64} {ir : Ir} {obtained : ℕ} {blocks : List ℕ}

/-- The states of the two versions of `pre_visit` belong together. -/
structure PreVisitRelated (base : ℕ → ℕ) (addr : ℕ → UInt64) (obtained : ℕ) (blocks : List ℕ)
    (s : HashedPreVisit) (t : PreVisitState) : Prop where
  visited : BlockSet base addr obtained blocks s.hashset t.hashset
  dbuffer : s.dbuffer = t.dbuffer

/-- **`pre_visit`.** -/
theorem preVisitHashed_related (hfit : BlocksFit base addr bucketEntryLayout obtained blocks)
    (hclosed : ∀ a ∈ blocks, ∀ b, cfgEdge ir a b → b ∈ blocks) (fuel : ℕ) :
    ∀ block ∈ blocks, ∀ s t t', PreVisitRelated base addr obtained blocks s t →
      preVisit ir fuel t block = some t' →
      ∃ s', preVisitHashed base addr ir fuel s block = some s' ∧
        PreVisitRelated base addr obtained blocks s' t' := by
  induction fuel with
  | zero =>
      intro block _ s t t' _ h
      cases h
  | succ fuel ih =>
      intro block hblock s t t' hrelated h
      unfold preVisit at h
      unfold preVisitHashed
      rw [hrelated.visited.exists_eq hfit hblock]
      cases hvisited : t.hashset block with
      | true =>
          rw [hvisited] at h
          obtain rfl := Option.some.inj h
          exact ⟨s, rfl, hrelated⟩
      | false =>
          rw [hvisited, if_neg Bool.false_ne_true] at h
          obtain ⟨t₁, ht₁, rfl⟩ := Option.map_eq_some_iff.mp h
          obtain ⟨hs', hinsert, hset⟩ := hrelated.visited.insert hfit hblock hvisited
          obtain ⟨s₁, hs₁, hrelated₁⟩ := Loop.foldlM_related (blockSuccessors ir block)
            (fun b hb => ih b (hclosed block hblock b hb))
            (s := { s with hashset := hs' }) ⟨hset, hrelated.dbuffer⟩ ht₁
          refine ⟨{ s₁ with dbuffer := s₁.dbuffer ++ [block] }, ?_, hrelated₁.visited, ?_⟩
          · rw [if_neg Bool.false_ne_true, hinsert]
            show Option.bind (List.foldlM _ _ _) _ = _
            rw [hs₁]
            rfl
          · rw [hrelated₁.dbuffer]

/-- The states of the two versions of the dumps belong together. -/
structure DumpRelated {σ : Type} (base : ℕ → ℕ) (addr : ℕ → UInt64) (obtained : ℕ)
    (blocks : List ℕ) (s : HashedDump σ) (t : DumpState σ) : Prop where
  visited : BlockSet base addr obtained blocks s.visited t.visited
  newVisit : s.newVisit = t.newVisit
  inside : ∀ b ∈ t.newVisit, b ∈ blocks
  printed : s.printed = t.printed

/-- **The visit of a block** by a dump. -/
theorem dumpVisitHashed_related {σ : Type} {print : σ → ℕ → Option σ}
    (hfit : BlocksFit base addr bucketEntryLayout obtained blocks)
    (hclosed : ∀ a ∈ blocks, ∀ b, cfgEdge ir a b → b ∈ blocks) {block : ℕ}
    (hblock : block ∈ blocks) {s : HashedDump σ} {t t' : DumpState σ}
    (h : DumpRelated base addr obtained blocks s t) (ht : dumpVisit ir print t block = some t') :
    ∃ s', dumpVisitHashed base addr ir print s block = some s' ∧
      DumpRelated base addr obtained blocks s' t' := by
  unfold dumpVisitHashed
  unfold dumpVisit at ht
  rw [h.visited.exists_eq hfit hblock]
  cases hvisited : t.visited block with
  | true =>
      rw [hvisited] at ht
      obtain rfl := Option.some.inj ht
      exact ⟨s, rfl, h⟩
  | false =>
      rw [hvisited, if_neg Bool.false_ne_true] at ht
      obtain ⟨printed, hprinted, ht⟩ := Option.bind_eq_some_iff.mp ht
      obtain rfl := Option.some.inj ht
      obtain ⟨hs', hinsert, hset⟩ := h.visited.insert hfit hblock hvisited
      rw [if_neg Bool.false_ne_true, hinsert]
      rw [← h.printed] at hprinted
      refine ⟨_, Option.bind_eq_some_iff.mpr ⟨_, rfl, Option.bind_eq_some_iff.mpr
        ⟨printed, hprinted, rfl⟩⟩, hset, ?_, fun b hb => ?_, rfl⟩
      · show s.newVisit ++ _ = _
        rw [h.newVisit]
      · rcases List.mem_append.mp hb with hb | hb
        · exact h.inside b hb
        · exact hclosed block hblock b hb

/-- **The loop over the levels.** -/
theorem dumpLoopHashed_related {σ : Type} {print : σ → ℕ → Option σ}
    (hfit : BlocksFit base addr bucketEntryLayout obtained blocks)
    (hclosed : ∀ a ∈ blocks, ∀ b, cfgEdge ir a b → b ∈ blocks) (fuel : ℕ) :
    ∀ toVisit hs visited printed result, (∀ b ∈ toVisit, b ∈ blocks) →
      BlockSet base addr obtained blocks hs visited →
      dumpLoop ir print fuel toVisit visited printed = some result →
      dumpLoopHashed base addr ir print fuel toVisit hs printed = some result := by
  induction fuel with
  | zero =>
      intro toVisit hs visited printed result _ _ h
      cases h
  | succ fuel ih =>
      intro toVisit hs visited printed result hinside hset h
      unfold dumpLoop at h
      unfold dumpLoopHashed
      by_cases hempty : toVisit = []
      · rw [if_pos hempty] at h ⊢
        exact h
      · rw [if_neg hempty] at h ⊢
        obtain ⟨t, ht, h⟩ := Option.bind_eq_some_iff.mp h
        obtain ⟨_, hstored, h⟩ := Option.bind_eq_some_iff.mp h
        have hstart : DumpRelated base addr obtained blocks ⟨hs, [], printed⟩
            (⟨visited, [], printed⟩ : DumpState σ) :=
          ⟨hset, rfl, fun b hb => absurd hb List.not_mem_nil, rfl⟩
        obtain ⟨s, hs', hrelated⟩ := Loop.foldlM_related toVisit
          (fun b hb s t t' hst ht =>
            dumpVisitHashed_related hfit hclosed (hinside b hb) hst ht) hstart ht
        refine Option.bind_eq_some_iff.mpr ⟨s, hs', Option.bind_eq_some_iff.mpr ⟨(), ?_, ?_⟩⟩
        · rw [hrelated.newVisit]
          exact hstored
        · rw [hrelated.newVisit, hrelated.printed]
          exact ih _ _ _ _ _ hrelated.inside hrelated.visited h

end Sets

/-! ## `_visit` with its hash map -/

section Numbers

variable {base : ℕ → ℕ} {addr : ℕ → UInt64} {ir : Ir} {obtained : ℕ} {blocks : List ℕ}
  {vis : List (ℕ × UInt64)} {s : HashedVisit} {t : VisitState}

/-- The states of the two versions of `_visit` belong together: the blocks in the table are
those with a number, and the number of a block that is in the postorder is in the
`node_data` of its entry. -/
structure VisitRelated (base : ℕ → ℕ) (addr : ℕ → UInt64) (obtained : ℕ) (blocks : List ℕ)
    (vis : List (ℕ × UInt64)) (s : HashedVisit) (t : VisitState) : Prop where
  table : BlockTable base addr nodeDataLayout obtained blocks s.nodeToNum s.allocator vis
  visited : ∀ b, (t.nodeToNum b).isSome ↔ b ∈ vis.map Prod.fst
  postorder : s.postorder = t.postorder
  listed : ∀ b ∈ t.postorder, b ∈ vis.map Prod.fst
  number : ∀ x ∈ vis, x.1 ∈ t.postorder → t.nodeToNum x.1 = some (s.number x.2)

theorem nodeDataLayout_fits : nodeDataLayout.Fits := ⟨by decide, by decide⟩

/-- They belong together, and the blocks `old` are in the table. -/
def VisitExtends (base : ℕ → ℕ) (addr : ℕ → UInt64) (obtained : ℕ) (blocks : List ℕ)
    (old : List (ℕ × UInt64)) (s : HashedVisit) (t : VisitState) : Prop :=
  ∃ vis, old ⊆ vis ∧ VisitRelated base addr obtained blocks vis s t

/-- A block gets its entry. -/
theorem VisitRelated.enter (hfit : BlocksFit base addr nodeDataLayout obtained blocks)
    (h : VisitRelated base addr obtained blocks vis s t) {block : ℕ} (hblock : block ∈ blocks)
    (hnew : t.nodeToNum block = none) :
    ∃ zone' entry, znnewEntry base nodeDataLayout s.allocator = some (zone', entry) ∧
      VisitRelated base addr obtained blocks (vis ++ [(block, entry)])
        { s with nodeToNum := hashmapSetPtr s.nodeToNum (addr block) entry, allocator := zone' }
        (t.setNumber block 0) := by
  have hnot : block ∉ vis.map Prod.fst := by
    rw [← h.visited, hnew]
    exact Bool.false_ne_true
  obtain ⟨zone', entry, hznnew, -, htable⟩ := h.table.add hfit nodeDataLayout_fits hblock hnot
  refine ⟨zone', entry, hznnew, htable, fun b => ?_, h.postorder, fun b hb => ?_,
    fun x hx hxpost => ?_⟩
  · by_cases hb : b = block
    · subst hb
      simp
    · rw [setNumber_of_ne hb, h.visited]
      simp [hb]
  · rw [List.map_append]
    exact List.mem_append_left _ (h.listed b hb)
  · have hne : x.1 ≠ block := by
      intro heq
      exact hnot (heq ▸ h.listed x.1 hxpost)
    rcases List.mem_append.mp hx with hx | hx
    · rw [setNumber_of_ne hne]
      exact h.number x hx hxpost
    · rw [List.mem_singleton.mp hx] at hne
      exact absurd rfl hne

/-- A block gets its number. -/
theorem VisitRelated.leave (h : VisitRelated base addr obtained blocks vis s t) {block : ℕ}
    {entry : UInt64} (hentry : (block, entry) ∈ vis) :
    VisitRelated base addr obtained blocks vis
      { s with number := Function.update s.number entry (toInt s.postorder.length)
               postorder := s.postorder ++ [block] }
      ((t.setNumber block (toInt t.postorder.length)).push block) := by
  refine ⟨h.table, fun b => ?_, ?_, fun b hb => ?_, fun x hx hxpost => ?_⟩
  · show ((t.setNumber block _).nodeToNum b).isSome ↔ _
    by_cases hb : b = block
    · subst hb
      rw [setNumber_self]
      exact iff_of_true rfl (List.mem_map_of_mem hentry)
    · rw [setNumber_of_ne hb, h.visited]
  · show s.postorder ++ [block] = t.postorder ++ [block]
    rw [h.postorder]
  · rcases List.mem_append.mp hb with hb | hb
    · exact h.listed b hb
    · rw [List.mem_singleton.mp hb]
      exact List.mem_map_of_mem hentry
  · show (t.setNumber block _).nodeToNum x.1 = some (Function.update s.number entry _ x.2)
    by_cases hblock : x.1 = block
    · have hx' := List.inj_on_of_nodup_map h.table.nodup hx hentry hblock
      rw [hx', setNumber_self, Function.update_self, h.postorder]
    · have hne : x.2 ≠ entry := fun heq =>
        hblock (congrArg Prod.fst (List.inj_on_of_nodup_map h.table.nodup_entries hx hentry heq))
      rw [setNumber_of_ne hblock, Function.update_of_ne hne]
      refine h.number x hx ?_
      rcases List.mem_append.mp hxpost with hpost | hpost
      · exact hpost
      · exact absurd (List.mem_singleton.mp hpost) hblock

/-- **`_visit`.** -/
theorem visitHashed_related (hfit : BlocksFit base addr nodeDataLayout obtained blocks)
    (hclosed : ∀ a ∈ blocks, ∀ b, cfgEdge ir a b → b ∈ blocks) (fuel : ℕ) :
    ∀ block ∈ blocks, ∀ vis s t t', VisitRelated base addr obtained blocks vis s t →
      visit ir fuel t block = some t' →
      ∃ s', visitHashed base addr ir fuel s block = some s' ∧
        VisitExtends base addr obtained blocks vis s' t' := by
  induction fuel with
  | zero =>
      intro block _ vis s t t' _ h
      cases h
  | succ fuel ih =>
      intro block hblock vis s t t' hrelated h
      have hget := hrelated.table.get_eq hfit hblock
      have hsame : (vis.lookup block).isSome ↔ (t.nodeToNum block).isSome := by
        rw [isSome_lookup_iff, hrelated.visited]
      unfold visit at h
      unfold visitHashed
      rw [hget]
      cases hnum : t.nodeToNum block with
      | some n =>
          rw [hnum] at h hsame
          obtain rfl := Option.some.inj h
          obtain ⟨entry, hentry⟩ := Option.isSome_iff_exists.mp (hsame.mpr rfl)
          rw [hentry]
          exact ⟨s, rfl, vis, List.Subset.refl _, hrelated⟩
      | none =>
          rw [hnum] at h hsame
          have hnone : vis.lookup block = none :=
            Option.not_isSome_iff_eq_none.mp fun hsome => Bool.false_ne_true (hsame.mp hsome)
          obtain ⟨t₁, ht₁, rfl⟩ := Option.map_eq_some_iff.mp h
          obtain ⟨zone', entry, hznnew, hentered⟩ := hrelated.enter hfit hblock hnum
          -- the calls for the successors only add blocks to the table
          have hcall : ∀ b ∈ blockSuccessors ir block, ∀ s₀ t₀ t₂,
              VisitExtends base addr obtained blocks (vis ++ [(block, entry)]) s₀ t₀ →
              visit ir fuel t₀ b = some t₂ →
              ∃ s₂, visitHashed base addr ir fuel s₀ b = some s₂ ∧
                VisitExtends base addr obtained blocks (vis ++ [(block, entry)]) s₂ t₂ := by
            rintro b hb s₀ t₀ t₂ ⟨vis₀, hsub₀, hrelated₀⟩ ht₂
            obtain ⟨s₂, hs₂, vis₂, hsub₂, hrelated₂⟩ :=
              ih b (hclosed block hblock b hb) vis₀ s₀ t₀ t₂ hrelated₀ ht₂
            exact ⟨s₂, hs₂, vis₂, List.Subset.trans hsub₀ hsub₂, hrelated₂⟩
          obtain ⟨s₁, hs₁, vis₁, hsub, hrelated₁⟩ := Loop.foldlM_related _ hcall
            ⟨_, List.Subset.refl _, hentered⟩ ht₁
          have hentry : (block, entry) ∈ vis₁ :=
            hsub (List.mem_append_right _ (List.mem_singleton.mpr rfl))
          refine ⟨_, ?_, vis₁, fun x hx => hsub (List.mem_append_left _ hx),
            hrelated₁.leave hentry⟩
          rw [hnone]
          show Option.bind (znnewEntry base nodeDataLayout s.allocator) _ = _
          rw [hznnew]
          show Option.bind (List.foldlM _ _ _) _ = _
          rw [hs₁]
          rfl

end Numbers

/-! ## `dominators_compute` -/

section Compute

variable {ir : Ir} {nodeToNum nodeToNum' : ℕ → Option ℤ} {postorder doms : List ℕ} {fuel : ℕ}

theorem dominatorsCompute_eq (ir : Ir) (fuel entry : ℕ) :
    dominatorsCompute ir fuel entry =
      (visit ir fuel visitStart entry).bind (dominatorsOfPostorder ir fuel) := rfl

-- the second table has the numbers of the first one
variable (hmore : ∀ b n, nodeToNum b = some n → nodeToNum' b = some n)
include hmore

theorem getNumber_of_more {b n : ℕ} (h : dominatorsGetNumber nodeToNum b = some n) :
    dominatorsGetNumber nodeToNum' b = some n := by
  obtain ⟨k, hk, rfl⟩ := Option.map_eq_some_iff.mp h
  rw [dominatorsGetNumber, hmore b k hk]
  rfl

theorem newDominator_of_more {i d : ℕ}
    (h : newDominator ir nodeToNum postorder doms fuel i = some d) :
    newDominator ir nodeToNum' postorder doms fuel i = some d := by
  unfold newDominator at h ⊢
  obtain ⟨block, hblock, h⟩ := Option.bind_eq_some_iff.mp h
  refine Option.bind_eq_some_iff.mpr ⟨block, hblock, ?_⟩
  cases hpreds : blockPredecessors ir block with
  | nil =>
      rw [hpreds] at h
      exact h
  | cons pred preds =>
      rw [hpreds] at h
      obtain ⟨first, hfirst, hfold⟩ := Option.bind_eq_some_iff.mp h
      refine Option.bind_eq_some_iff.mpr ⟨first, getNumber_of_more hmore hfirst, ?_⟩
      refine Loop.foldlM_mono (fun newDom b newDom' hround => ?_) preds hfold
      obtain ⟨n, hn, hmeet⟩ := Option.bind_eq_some_iff.mp hround
      exact Option.bind_eq_some_iff.mpr ⟨n, getNumber_of_more hmore hn, hmeet⟩

theorem dominatorsRound_of_more {elementCount : ℕ} {result : List ℕ × Bool}
    (h : dominatorsRound ir nodeToNum postorder elementCount fuel doms = some result) :
    dominatorsRound ir nodeToNum' postorder elementCount fuel doms = some result := by
  refine Loop.foldlM_mono (fun s i s' hround => ?_) _ h
  obtain ⟨newDom, hnewDom, hrest⟩ := Option.bind_eq_some_iff.mp hround
  exact Option.bind_eq_some_iff.mpr ⟨newDom, newDominator_of_more hmore hnewDom, hrest⟩

theorem dominatorsLoop_of_more {elementCount : ℕ} (rounds : ℕ) {doms result : List ℕ}
    (h : dominatorsLoop ir nodeToNum postorder elementCount fuel rounds doms = some result) :
    dominatorsLoop ir nodeToNum' postorder elementCount fuel rounds doms = some result := by
  induction rounds generalizing doms with
  | zero => cases h
  | succ rounds ih =>
      obtain ⟨⟨doms', changed⟩, hround, hrest⟩ := Option.bind_eq_some_iff.mp h
      refine Option.bind_eq_some_iff.mpr ⟨_, dominatorsRound_of_more hmore hround, ?_⟩
      cases changed with
      | true => exact ih hrest
      | false => exact hrest

/-- **The fixpoint** only depends on the numbers that it reads. -/
theorem dominatorsOfPostorder_of_more {d : Dominators}
    (h : dominatorsOfPostorder ir fuel ⟨nodeToNum, postorder⟩ = some d) :
    dominatorsOfPostorder ir fuel ⟨nodeToNum', postorder⟩ =
      some { d with nodeToNum := nodeToNum' } := by
  unfold dominatorsOfPostorder at h ⊢
  dsimp only at h ⊢
  by_cases hempty : postorder.length = 0
  · rw [if_pos hempty] at h ⊢
    obtain rfl := Option.some.inj h
    rfl
  · rw [if_neg hempty] at h ⊢
    obtain ⟨doms, hdoms, hrest⟩ := Option.bind_eq_some_iff.mp h
    obtain ⟨domNodes, hdomNodes, hd⟩ := Option.bind_eq_some_iff.mp hrest
    obtain rfl := Option.some.inj hd
    refine Option.bind_eq_some_iff.mpr ⟨doms, dominatorsLoop_of_more hmore fuel hdoms, ?_⟩
    exact Option.bind_eq_some_iff.mpr ⟨domNodes, hdomNodes, rfl⟩

omit hmore in
theorem dominatorsOfPostorder_postorder {d : Dominators}
    (h : dominatorsOfPostorder ir fuel ⟨nodeToNum, postorder⟩ = some d) :
    d.postorder = postorder := by
  unfold dominatorsOfPostorder at h
  dsimp only at h
  by_cases hempty : postorder.length = 0
  · rw [if_pos hempty] at h
    exact congrArg Dominators.postorder (Option.some.inj h).symm
  · rw [if_neg hempty] at h
    obtain ⟨doms, -, h⟩ := Option.bind_eq_some_iff.mp h
    obtain ⟨domNodes, -, h⟩ := Option.bind_eq_some_iff.mp h
    exact congrArg Dominators.postorder (Option.some.inj h).symm

end Compute

/-! ## The traversals agree -/

/-- Where the traversals with a function or a set end within `fuel` steps and their buffers
have room, those with the hash tables end with the same results. -/
structure TraversalsAgree (base : ℕ → ℕ) (addr : ℕ → UInt64) (ir : Ir)
    (keys : UInt64 → HmKey UInt64) (next : ℕ → ℕ) (obtained : ℕ) (number : UInt64 → ℤ)
    (annotations : IrPrintAnnotations) (names : ValueNames) (fuel entry : ℕ) : Prop where
  dominators : ∀ doms, dominatorsCompute ir fuel entry = some doms →
    PostorderStored doms.postorder → ChildsStored doms.domNodes → ∃ numbers,
    dominatorsComputeHashed base addr ir keys next obtained number fuel entry =
        some { doms with nodeToNum := numbers } ∧
      ∀ b, Reachable (cfgEdge ir) entry b → numbers b = doms.nodeToNum b
  postorder : ∀ postorder, blockComputePostorder ir fuel entry = some postorder →
    PostorderStored postorder →
    blockComputePostorderHashed base addr ir keys next obtained fuel entry = some postorder
  dump : ∀ dumped, functionDump ir annotations fuel entry names = some dumped →
    functionDumpHashed base addr ir keys next obtained annotations names fuel entry = some dumped
  dumpDot : ∀ graph, functionDumpDot ir annotations addr fuel entry names = some graph →
    functionDumpDotHashed base addr ir keys next obtained annotations names fuel entry =
      some graph

section Agree

variable {base : ℕ → ℕ} {addr : ℕ → UInt64} {ir : Ir} {obtained : ℕ} {blocks : List ℕ}

/-- After the visit from the entry the table has the numbers. -/
theorem VisitRelated.getNumber {vis : List (ℕ × UInt64)} {s : HashedVisit} {t : VisitState}
    {entry : ℕ} (hfit : BlocksFit base addr nodeDataLayout obtained blocks)
    (h : VisitRelated base addr obtained blocks vis s t) (hpost : IsPostorder ir entry t)
    (b : ℕ) (n : ℤ) (hn : t.nodeToNum b = some n) : s.getNumber addr b = some n := by
  have hvis : b ∈ vis.map Prod.fst := (h.visited b).mp (by rw [hn]; rfl)
  obtain ⟨x, hx, rfl⟩ := List.mem_map.mp hvis
  obtain ⟨entry', hentry⟩ := Option.isSome_iff_exists.mp (isSome_lookup_iff.mpr hvis)
  have hlisted : x.1 ∈ t.postorder := by
    by_contra hnot
    rw [hpost.none x.1 hnot] at hn
    cases hn
  have hmem : (x.1, entry') ∈ vis := by
    obtain ⟨l₁, l₂, rfl, -⟩ := List.lookup_eq_some_iff.mp hentry
    simp
  have hnumber := h.number (x.1, entry') hmem hlisted
  rw [HashedVisit.getNumber, h.table.get_eq hfit (h.table.mem x hx), hentry]
  exact hnumber.symm.trans hn

/-- **The traversals with their hash tables** lead to the same results as those with a
function or a set, where the buffers of these have room, on every graph with fewer than
`80 * 2 ^ 25` reachable blocks. -/
theorem traversals_hashed (blocks : List ℕ) {entry : ℕ}
    (hblocks : ∀ b, b ∈ blocks ↔ Reachable (cfgEdge ir) entry b)
    (hnodes : BlocksFit base addr nodeDataLayout obtained blocks)
    (hsets : BlocksFit base addr bucketEntryLayout obtained blocks)
    (keys : UInt64 → HmKey UInt64) (next : ℕ → ℕ) (number : UInt64 → ℤ)
    (annotations : IrPrintAnnotations) (names : ValueNames) (fuel : ℕ) :
    TraversalsAgree base addr ir keys next obtained number annotations names fuel entry := by
  have hentry : entry ∈ blocks := (hblocks entry).mpr .root
  have hclosed : ∀ a ∈ blocks, ∀ b, cfgEdge ir a b → b ∈ blocks := fun a ha b hab =>
    (hblocks b).mpr (((hblocks a).mp ha).step hab)
  have hlevel : ∀ b ∈ [entry], b ∈ blocks := fun b hb => List.mem_singleton.mp hb ▸ hentry
  refine ⟨fun doms hdoms hstored hchilds => ?_, fun postorder hpostorder hstored => ?_,
    fun dumped hdumped => ?_, fun graph hgraph => ?_⟩
  · rw [dominatorsCompute_eq] at hdoms
    obtain ⟨t, ht, hrest⟩ := Option.bind_eq_some_iff.mp hdoms
    obtain ⟨s, hs, vis, -, hrelated⟩ := visitHashed_related hnodes hclosed fuel entry hentry []
      ⟨hashmapInits 100 keys, zoneInit base next obtained, number, []⟩ visitStart t
      ⟨blockTable_init keys next, fun b => by simp [visitStart], rfl,
        fun b hb => absurd hb List.not_mem_nil, fun x hx => absurd hx List.not_mem_nil⟩ ht
    have hpost := visit_postorder ht
    have hmore := hrelated.getNumber hnodes hpost
    have hnums : doms.nodeToNum = t.nodeToNum := by
      have hsame := dominatorsOfPostorder_of_more (fun _ _ hb => hb) hrest
      rw [hrest] at hsame
      exact congrArg Dominators.nodeToNum (Option.some.inj hsame)
    have hlength : PointersStored 1000 s.postorder.length := by
      rw [hrelated.postorder, ← dominatorsOfPostorder_postorder hrest, pointersStored_init_iff]
      exact (postorderStored_iff _).mp hstored
    have hroom : ∀ node ∈ doms.domNodes, PointersStored 64 node.childs.length := fun node hnode =>
      (pointersStored_iff (show 2 ≤ 8 by decide) (by decide)).mpr
        ((childsStored_iff_length _).mp hchilds node hnode)
    refine ⟨s.getNumber addr, ?_, fun b hb => ?_⟩
    · refine Option.bind_eq_some_iff.mpr ⟨s, hs, Option.bind_eq_some_iff.mpr
        ⟨(), (Option.guard_eq_some' _).mpr hlength, Option.bind_eq_some_iff.mpr
          ⟨{ doms with nodeToNum := s.getNumber addr }, ?_, Option.bind_eq_some_iff.mpr
            ⟨(), (Option.guard_eq_some' _).mpr hroom, rfl⟩⟩⟩⟩
      rw [hrelated.postorder]
      exact dominatorsOfPostorder_of_more hmore hrest
    · obtain ⟨k, hk⟩ := List.mem_iff_getElem?.mp ((hpost.mem b).mpr hb)
      rw [hnums, hpost.number k b hk]
      exact hmore b _ (hpost.number k b hk)
  · obtain ⟨t, ht, rfl⟩ := Option.map_eq_some_iff.mp hpostorder
    obtain ⟨s, hs, hrelated⟩ := preVisitHashed_related hsets hclosed fuel entry hentry
      ⟨hashsetInit base keys next obtained, []⟩ ⟨fun _ => false, []⟩ t
      ⟨blockSet_init keys next, rfl⟩ ht
    have hlength : PointersStored 1000 s.dbuffer.length := by
      rw [hrelated.dbuffer, pointersStored_init_iff]
      exact (postorderStored_iff _).mp hstored
    exact Option.bind_eq_some_iff.mpr ⟨s, hs, Option.bind_eq_some_iff.mpr
      ⟨(), (Option.guard_eq_some' _).mpr hlength, congrArg some hrelated.dbuffer⟩⟩
  · exact dumpLoopHashed_related hsets hclosed fuel [entry] _ _ _ dumped hlevel
      (blockSet_init keys next) hdumped
  · obtain ⟨s, hs, hrest⟩ := Option.bind_eq_some_iff.mp hgraph
    exact Option.bind_eq_some_iff.mpr ⟨s, dumpLoopHashed_related hsets hclosed fuel [entry] _ _ _
      s hlevel (blockSet_init keys next) hs, hrest⟩

end Agree

/-- The blocks of `joinLoop`, in objects of 64 bytes. -/
theorem traversals_hashed_joinLoop :
    TraversalsAgree (fun k => 4096 * (k + 1)) (fun b => UInt64.ofNat (64 * b)) joinLoop
      (fun _ => ⟨0, 0⟩) (fun _ => 0) 0 (fun _ => 0) ⟨none, none⟩ ⟨fun _ => [], 0⟩ 10 0 := by
  have hfresh : FreshBlocks fun k => 4096 * (k + 1) :=
    ⟨fun k => by omega, fun i j hij => by omega⟩
  refine traversals_hashed [0, 1, 2, 3, 4, 5] (fun b => ?_)
    ⟨hfresh, by decide, by decide, fun k hk => ?_⟩ ⟨hfresh, by decide, by decide, fun k hk => ?_⟩
    (fun _ => ⟨0, 0⟩) (fun _ => 0) (fun _ => 0) ⟨none, none⟩ ⟨fun _ => [], 0⟩ 10
  · rw [reachable_joinLoop]
    simp only [List.mem_cons, List.not_mem_nil, or_false]
    omega
  · have hfits : k * 73 ≤ 6 := hk
    show 4096 * (0 + k + 1) + 4096 ≤ 2 ^ 64
    omega
  · have hfits : k * 85 ≤ 6 := hk
    show 4096 * (0 + k + 1) + 4096 ≤ 2 ^ 64
    omega
