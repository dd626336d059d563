/-
# The zone allocator (`zone_alloc.c`)

A zone is a block of 4096 bytes from `dmalloc` with a header of eight bytes, the link to
the zone before it.  `zone_alloc` cuts regions off the zone on top and gets a new zone when
the rest is too small.  `parser_init` overwrites the allocator that it has initialised, so
that the parser starts without a zone; a request of no bytes is then answered with the null
pointer.

* `zoneRun_accounts` : from an allocator with a zone the accounting is right in every run;
* `zoneRun_accounts_iff` : from the other one exactly if the first request is not empty.
-/
import Mathlib.Data.List.Nodup
import MCompiler.Lib.Runs
import MCompiler.ParserStatements

open Runs

/-! ## The allocator -/

/-- `zone_allocator`, with the headers of the zones and the number of blocks that
`dmalloc` has returned.  The null pointer is 0. -/
structure ZoneAllocator where
  topZone : ℕ := 0
  ptr : ℕ := 0
  remaining : ℕ := 0
  next : ℕ → ℕ
  obtained : ℕ

section Allocator

-- the block that each call of `dmalloc` returns
variable (base : ℕ → ℕ)

/-- `_new_zone`. -/
def newZone (alloc : ZoneAllocator) : ZoneAllocator :=
  let hdr := base alloc.obtained
  { topZone := hdr
    ptr := hdr + 8
    remaining := maxZoneAllocation
    next := Function.update alloc.next hdr alloc.topZone
    obtained := alloc.obtained + 1 }

/-- `zone_init`. -/
def zoneInit (next : ℕ → ℕ) (obtained : ℕ) : ZoneAllocator :=
  newZone base { next := next, obtained := obtained }

/-- What `parser_init` does to the zone: it is initialised, and then overwritten with
zeros. -/
def parserInitZone (next : ℕ → ℕ) (obtained : ℕ) : ZoneAllocator :=
  { zoneInit base next obtained with topZone := 0, ptr := 0, remaining := 0 }

/-- A region that has been returned. -/
structure Region where
  ptr : ℕ
  size : ℕ
  deriving DecidableEq

/-- `zone_alloc`; the assertion on the size fails as `none`. -/
def zoneAllocRegion (alloc : ZoneAllocator) (size : ℕ) : Option (ZoneAllocator × Region) :=
  if size ≤ maxZoneAllocation then
    let alloc := if size > alloc.remaining then newZone base alloc else alloc
    some ({ alloc with ptr := alloc.ptr + size, remaining := alloc.remaining - size },
      ⟨alloc.ptr, size⟩)
  else none

/-- The loop of `zone_free`: the zones freed, in this order. -/
def zoneFreeLoop (next : ℕ → ℕ) : ℕ → ℕ → Option (List ℕ)
  | 0, _ => none
  | fuel + 1, current =>
      if current = 0 then some []
      else (zoneFreeLoop next fuel (next current)).map (current :: ·)

/-- `zone_free`. -/
def zoneFree (fuel : ℕ) (alloc : ZoneAllocator) : Option (List ℕ) :=
  zoneFreeLoop alloc.next fuel alloc.topZone

/-! ## Runs -/

/-- An allocator, and the regions that it has returned. -/
structure ZoneSession where
  alloc : ZoneAllocator
  regions : List Region

/-- A call of `zone_alloc`. -/
def zoneStep (s : ZoneSession) (size : ℕ) : Option ZoneSession :=
  (zoneAllocRegion base s.alloc size).map fun result => ⟨result.1, s.regions ++ [result.2]⟩

/-- `dmalloc` returns fresh blocks: none of them is the null pointer, and no two overlap. -/
structure FreshBlocks : Prop where
  ne_null : ∀ k, base k ≠ 0
  disjoint : ∀ i j, i ≠ j → base i + 4096 ≤ base j ∨ base j + 4096 ≤ base i

/-- The bytes of two regions are different ones. -/
def Region.Disjoint (r r' : Region) : Prop := r.ptr + r.size ≤ r'.ptr ∨ r'.ptr + r'.size ≤ r.ptr

/-- **The accounting is right**, for the zones obtained from the block `first` on. -/
structure ZoneAccounts (first : ℕ) (s : ZoneSession) : Prop where
  inside : ∀ r ∈ s.regions, ∃ k, first ≤ k ∧ k < s.alloc.obtained ∧
    base k + 8 ≤ r.ptr ∧ r.ptr + r.size ≤ base k + 4096
  disjoint : s.regions.Pairwise Region.Disjoint
  remaining : s.alloc.topZone ≠ 0 → s.alloc.ptr + s.alloc.remaining = s.alloc.topZone + 4096
  noZone : s.alloc.topZone = 0 → s.alloc.remaining = 0
  frees : ∃ fuel freed, zoneFree fuel s.alloc = some freed ∧ freed.Nodup ∧
    ∀ zone, zone ∈ freed ↔ ∃ k, first ≤ k ∧ k < s.alloc.obtained ∧ zone = base k

/-- The accounting is right after every request of a run from `alloc`. -/
def RunAccounts (alloc : ZoneAllocator) (first : ℕ) (sizes : List ℕ) : Prop :=
  ∀ before, before <+: sizes → ∃ s, run (zoneStep base) ⟨alloc, []⟩ before = some s ∧
    ZoneAccounts base first s

end Allocator

/-! ## The invariant -/

section Invariant

variable {base : ℕ → ℕ} {first : ℕ} {s : ZoneSession}

/-- The headers link the zones `first`, …, `last`, the last one on top. -/
def HeadersLinked (base next : ℕ → ℕ) (first last : ℕ) : Prop :=
  next (base first) = 0 ∧ ∀ k, first < k → k ≤ last → next (base k) = base (k - 1)

/-- With the zones `first`, …, `last` obtained. -/
structure ZoneInv (base : ℕ → ℕ) (first last : ℕ) (s : ZoneSession) : Prop where
  le : first ≤ last
  obtained : s.alloc.obtained = last + 1
  top : s.alloc.topZone = base last
  start : base last + 8 ≤ s.alloc.ptr
  remaining : s.alloc.ptr + s.alloc.remaining = base last + 4096
  linked : HeadersLinked base s.alloc.next first last
  inside : ∀ r ∈ s.regions, ∃ k, first ≤ k ∧ k ≤ last ∧ base k + 8 ≤ r.ptr ∧
    r.ptr + r.size ≤ base k + 4096 ∧ (k = last → r.ptr + r.size ≤ s.alloc.ptr)
  disjoint : s.regions.Pairwise Region.Disjoint

theorem FreshBlocks.inj (h : FreshBlocks base) {i j : ℕ} (heq : base i = base j) : i = j := by
  by_contra hne
  have hdisjoint := h.disjoint i j hne
  omega

/-- The walk of `zone_free` from the zone on top. -/
theorem zoneFreeLoop_eq (hfresh : FreshBlocks base) {next : ℕ → ℕ} (n : ℕ)
    (h : HeadersLinked base next first (first + n)) :
    zoneFreeLoop next (n + 2) (base (first + n)) =
      some ((List.range' first (n + 1)).reverse.map base) := by
  induction n with
  | zero =>
      have hne := hfresh.ne_null first
      simp [zoneFreeLoop, h.1, hne]
  | succ n ih =>
      have hne := hfresh.ne_null (first + (n + 1))
      have hlink := h.2 (first + (n + 1)) (by omega) (Nat.le_refl _)
      have hrest := ih ⟨h.1, fun k hk hle => h.2 k hk (by omega)⟩
      have hsplit : List.range' first (n + 1 + 1) =
          List.range' first (n + 1) ++ [first + (n + 1)] := List.range'_1_concat
      rw [zoneFreeLoop, if_neg hne, hlink, show first + (n + 1) - 1 = first + n from by omega,
        hrest, hsplit, List.reverse_append]
      rfl

/-- The invariant says that the accounting is right. -/
theorem ZoneInv.accounts (hfresh : FreshBlocks base) {last : ℕ} (h : ZoneInv base first last s) :
    ZoneAccounts base first s where
  inside r hr := by
    obtain ⟨k, hk, hlast, hstart, hend, -⟩ := h.inside r hr
    exact ⟨k, hk, by rw [h.obtained]; omega, hstart, hend⟩
  disjoint := h.disjoint
  remaining _ := by rw [h.top, h.remaining]
  noZone hnull := by
    rw [h.top] at hnull
    exact absurd hnull (hfresh.ne_null last)
  frees := by
    obtain ⟨n, rfl⟩ := Nat.exists_eq_add_of_le h.le
    refine ⟨n + 2, (List.range' first (n + 1)).reverse.map base, ?_, ?_, ?_⟩
    · unfold zoneFree
      rw [h.top]
      exact zoneFreeLoop_eq hfresh n h.linked
    · refine List.Nodup.map (fun i j => hfresh.inj) ?_
      rw [List.nodup_reverse]
      exact List.nodup_range'
    · intro zone
      simp only [List.mem_map, List.mem_reverse, List.mem_range'_1, h.obtained]
      constructor
      · rintro ⟨k, ⟨hk, hlt⟩, rfl⟩
        exact ⟨k, hk, by omega, rfl⟩
      · rintro ⟨k, hk, hlt, rfl⟩
        exact ⟨k, ⟨hk, by omega⟩, rfl⟩

/-- A new zone on top of others. -/
theorem ZoneInv.newZone (hfresh : FreshBlocks base) {last : ℕ} (h : ZoneInv base first last s) :
    ZoneInv base first (last + 1) ⟨newZone base s.alloc, s.regions⟩ := by
  have hother : ∀ k, k ≤ last → base k ≠ base (last + 1) := by
    intro k hk heq
    have heq := hfresh.inj heq
    omega
  refine ⟨by have := h.le; omega, ?_, ?_, ?_, ?_, ⟨?_, fun k hk hle => ?_⟩, fun r hr => ?_,
    h.disjoint⟩
  · show s.alloc.obtained + 1 = _
    rw [h.obtained]
  · show base s.alloc.obtained = _
    rw [h.obtained]
  · show _ ≤ base s.alloc.obtained + 8
    exact Nat.le_of_eq (by rw [h.obtained])
  · show base s.alloc.obtained + 8 + maxZoneAllocation = _
    rw [h.obtained]
    rfl
  · show Function.update s.alloc.next (base s.alloc.obtained) _ _ = 0
    rw [h.obtained, Function.update_of_ne (hother first h.le)]
    exact h.linked.1
  · show Function.update s.alloc.next (base s.alloc.obtained) s.alloc.topZone _ = _
    rw [h.obtained, h.top]
    by_cases hk' : k = last + 1
    · rw [hk', Function.update_self, Nat.add_sub_cancel]
    · rw [Function.update_of_ne (hother k (by omega))]
      exact h.linked.2 k hk (by omega)
  · obtain ⟨k, hk, hlast, hstart, hend, -⟩ := h.inside r hr
    exact ⟨k, hk, by omega, hstart, hend, fun heq => by omega⟩

/-- A region cut off the zone on top. -/
theorem ZoneInv.cut (hfresh : FreshBlocks base) {last size : ℕ} (h : ZoneInv base first last s)
    (hsize : size ≤ s.alloc.remaining) :
    ZoneInv base first last
      ⟨{ s.alloc with ptr := s.alloc.ptr + size, remaining := s.alloc.remaining - size },
        s.regions ++ [⟨s.alloc.ptr, size⟩]⟩ := by
  have hremaining := h.remaining
  have hstart := h.start
  refine ⟨h.le, h.obtained, h.top, ?_, ?_, h.linked, fun r hr => ?_, ?_⟩
  · dsimp only
    omega
  · dsimp only
    omega
  · rcases List.mem_append.mp hr with hr | hr
    · obtain ⟨k, hk, hlast, hin, hend, htop⟩ := h.inside r hr
      refine ⟨k, hk, hlast, hin, hend, fun heq => ?_⟩
      have hle := htop heq
      dsimp only
      omega
    · rw [List.mem_singleton.mp hr]
      refine ⟨last, h.le, Nat.le_refl _, hstart, ?_, fun _ => Nat.le_refl _⟩
      dsimp only
      omega
  · refine List.pairwise_append.mpr ⟨h.disjoint, List.pairwise_singleton _ _, ?_⟩
    intro r hr r' hr'
    rw [List.mem_singleton.mp hr']
    obtain ⟨k, hk, hlast, hin, hend, htop⟩ := h.inside r hr
    unfold Region.Disjoint
    dsimp only
    by_cases heq : k = last
    · exact .inl (htop heq)
    · have hblocks := hfresh.disjoint k last heq
      omega

/-- **A request** keeps the invariant. -/
theorem ZoneInv.step (hfresh : FreshBlocks base) {last size : ℕ} (h : ZoneInv base first last s)
    (hsize : size ≤ maxZoneAllocation) :
    ∃ last' s', zoneStep base s size = some s' ∧ ZoneInv base first last' s' := by
  unfold zoneStep zoneAllocRegion
  rw [if_pos hsize]
  by_cases hfits : size > s.alloc.remaining
  · rw [if_pos hfits]
    exact ⟨last + 1, _, rfl, (h.newZone hfresh).cut hfresh hsize⟩
  · rw [if_neg hfits]
    exact ⟨last, _, rfl, h.cut hfresh (Nat.not_lt.mp hfits)⟩

/-- The first zone. -/
theorem zoneInv_newZone (next : ℕ → ℕ) (obtained : ℕ) :
    ZoneInv base obtained obtained ⟨zoneInit base next obtained, []⟩ where
  le := Nat.le_refl _
  obtained := rfl
  top := rfl
  start := Nat.le_refl _
  remaining := rfl
  linked := ⟨Function.update_self .., fun k hk hle => by omega⟩
  inside r hr := by cases hr
  disjoint := List.Pairwise.nil

/-- **A run** keeps the invariant. -/
theorem ZoneInv.run (hfresh : FreshBlocks base) (sizes : List ℕ)
    (hsizes : ∀ size ∈ sizes, size ≤ maxZoneAllocation) {last : ℕ}
    (h : ZoneInv base first last s) :
    ∃ last' s', Runs.run (zoneStep base) s sizes = some s' ∧ ZoneInv base first last' s' := by
  induction sizes generalizing s last with
  | nil => exact ⟨last, s, rfl, h⟩
  | cons size sizes ih =>
      obtain ⟨last₁, s₁, hstep, h₁⟩ := h.step hfresh (hsizes size List.mem_cons_self)
      obtain ⟨last', s', hrun, h'⟩ := ih (fun n hn => hsizes n (List.mem_cons_of_mem _ hn)) h₁
      exact ⟨last', s', run_cons_eq_some.mpr ⟨s₁, hstep, hrun⟩, h'⟩

end Invariant

/-! ## The two starts -/

section Starts

variable {base : ℕ → ℕ}

/-- **From `zone_init`** the accounting is right in every run. -/
theorem zoneRun_accounts (hfresh : FreshBlocks base) (next : ℕ → ℕ) (obtained : ℕ)
    (sizes : List ℕ) (hsizes : ∀ size ∈ sizes, size ≤ maxZoneAllocation) :
    RunAccounts base (zoneInit base next obtained) obtained sizes := by
  intro before hbefore
  obtain ⟨last, s, hrun, hinv⟩ := (zoneInv_newZone next obtained).run hfresh before
    fun size hsize => hsizes size (hbefore.subset hsize)
  exact ⟨s, hrun, hinv.accounts hfresh⟩

/-- The first request that is not empty gets a zone, as after `zone_init`. -/
theorem zoneStep_parserInit (next : ℕ → ℕ) (obtained : ℕ) {size : ℕ} (hpos : 0 < size)
    (hsize : size ≤ maxZoneAllocation) :
    zoneStep base ⟨parserInitZone base next obtained, []⟩ size =
      zoneStep base ⟨zoneInit base (zoneInit base next obtained).next (obtained + 1), []⟩ size := by
  have hnew : newZone base (parserInitZone base next obtained) =
      zoneInit base (zoneInit base next obtained).next (obtained + 1) := rfl
  have hempty : (parserInitZone base next obtained).remaining = 0 := rfl
  have hfull : (zoneInit base (zoneInit base next obtained).next (obtained + 1)).remaining =
      maxZoneAllocation := rfl
  unfold zoneStep zoneAllocRegion
  dsimp only
  rw [if_pos hsize, if_pos hsize, hempty, hfull, if_pos hpos, if_neg (Nat.not_lt.mpr hsize), hnew]

/-- The allocator that `parser_init` leaves has no zone. -/
theorem accounts_parserInit (next : ℕ → ℕ) (obtained : ℕ) :
    ZoneAccounts base (obtained + 1) ⟨parserInitZone base next obtained, []⟩ where
  inside r hr := by cases hr
  disjoint := List.Pairwise.nil
  remaining hne := absurd rfl hne
  noZone _ := rfl
  frees := by
    refine ⟨1, [], rfl, List.nodup_nil, fun zone => ?_⟩
    constructor
    · intro hzone
      cases hzone
    · rintro ⟨k, hk, hlt, -⟩
      exact absurd hlt (Nat.not_lt.mpr hk)

/-- An empty request before any other returns the null pointer. -/
theorem not_accounts_empty (next : ℕ → ℕ) (obtained : ℕ) (sizes : List ℕ) :
    ¬ RunAccounts base (parserInitZone base next obtained) (obtained + 1) (0 :: sizes) := by
  intro h
  obtain ⟨s, hrun, haccounts⟩ := h [0] ⟨sizes, rfl⟩
  have hstep : run (zoneStep base) ⟨parserInitZone base next obtained, []⟩ [0] =
      some ⟨parserInitZone base next obtained, [⟨0, 0⟩]⟩ := rfl
  rw [hstep] at hrun
  cases hrun
  obtain ⟨k, -, -, hstart, -⟩ := haccounts.inside ⟨0, 0⟩ List.mem_cons_self
  dsimp only at hstart
  omega

/-- **Zone allocations are disjoint and in bounds** in every run from `zone_init`, and from
the allocator that `parser_init` leaves exactly in those that do not start with an empty
request. -/
theorem zoneRun_accounts_iff (hfresh : FreshBlocks base) (next : ℕ → ℕ) (obtained : ℕ)
    (sizes : List ℕ) (hsizes : ∀ size ∈ sizes, size ≤ maxZoneAllocation) :
    RunAccounts base (zoneInit base next obtained) obtained sizes ∧
    (RunAccounts base (parserInitZone base next obtained) (obtained + 1) sizes ↔
      sizes.head? ≠ some 0) := by
  refine ⟨zoneRun_accounts hfresh next obtained sizes hsizes, ?_⟩
  cases sizes with
  | nil =>
      refine iff_of_true (fun before hbefore => ?_) (by simp)
      rw [List.prefix_nil.mp hbefore]
      exact ⟨_, rfl, accounts_parserInit next obtained⟩
  | cons size sizes =>
      rw [List.head?_cons, ne_eq, Option.some.injEq]
      constructor
      · rintro h rfl
        exact not_accounts_empty next obtained sizes h
      · intro hne before hbefore
        cases before with
        | nil => exact ⟨_, rfl, accounts_parserInit next obtained⟩
        | cons first before =>
            obtain ⟨rfl, -⟩ := List.cons_prefix_cons.mp hbefore
            rw [run_cons, zoneStep_parserInit next obtained (Nat.pos_of_ne_zero hne)
              (hsizes first List.mem_cons_self)]
            exact zoneRun_accounts hfresh _ (obtained + 1) _ hsizes (first :: before) hbefore

end Starts

/-- A region of the largest size and one behind it, after empty ones. -/
theorem zoneRun_accounts_maximum :
    RunAccounts (fun k => 4096 * (k + 1)) (zoneInit (fun k => 4096 * (k + 1)) (fun _ => 0) 0) 0
      [0, 4088, 0, 1] ∧
    (RunAccounts (fun k => 4096 * (k + 1))
        (parserInitZone (fun k => 4096 * (k + 1)) (fun _ => 0) 0) 1 [0, 4088, 0, 1] ↔
      [0, 4088, 0, 1].head? ≠ some 0) :=
  zoneRun_accounts_iff ⟨fun k => by omega, fun i j hij => by omega⟩ (fun _ => 0) 0 [0, 4088, 0, 1]
    (by decide)

/-- The empty block of `void f() {}`, for which nothing has been allocated before. -/
theorem zoneRun_not_accounts :
    ¬ RunAccounts (fun k => 4096 * (k + 1))
      (parserInitZone (fun k => 4096 * (k + 1)) (fun _ => 0) 0) 1 [0] :=
  not_accounts_empty (fun _ => 0) 0 []
