/-
# From a syntax tree to SSA form

`convertFunction` is what `tests/ssa_test.c` does with a parsed function: it creates the
function, computes its dominators and their frontiers, and converts it.  All that the single
steps assume holds of a created function, so the whole chain ends (`exists_functionConverted`),
and the lists of frontiers fit their buffers (`created_frontiers`).
-/
import MCompiler.IrCreationDominators
import MCompiler.IrCreationNames
import MCompiler.SsaPrecondition
import MCompiler.SsaPreservation

open FlowGraph

/-! ## The code -/

/-- The steps of `main` in `tests/ssa_test.c` behind the parser. -/
def convertFunction (creator : IrCreator) (f : AstNode) (fuel : ℕ) : Option (Ir × ℕ) := do
  let (creator, entry) ← irCreatorCreateFunction creator f
  let doms ← dominatorsCompute creator.ctx fuel entry
  let df ← domfrontiersCompute creator.ctx doms fuel
  let ir ← ssaConvert doms df fuel creator.ctx entry
  return (ir, entry)

/-! ## Registers -/

/-- The numbers in the declarations of blocks are below `n`. -/
def NumbersBelow (blocks : List Declarations) (n : ℕ) : Prop :=
  ∀ decls ∈ blocks, ∀ d ∈ decls, d.2 < n

section Registers

variable {blocks : List Declarations} {m n : ℕ}

theorem NumbersBelow.mono (h : NumbersBelow blocks n) (hle : n ≤ m) : NumbersBelow blocks m :=
  fun decls hdecls d hd => Nat.lt_of_lt_of_le (h decls hdecls d hd) hle

theorem NumbersBelow.nest (h : NumbersBelow blocks n) : NumbersBelow ([] :: blocks) n := by
  intro decls hdecls d hd
  rcases List.mem_cons.mp hdecls with rfl | hdecls
  · cases hd
  · exact h decls hdecls d hd

theorem NumbersBelow.declareIn (h : NumbersBelow blocks n) (varName : Range) :
    NumbersBelow (declareIn blocks varName n) (n + 1) := by
  cases blocks with
  | nil => exact fun decls hdecls => by cases hdecls
  | cons decls₀ blocks =>
      intro decls hdecls d hd
      rcases List.mem_cons.mp hdecls with rfl | hdecls
      · rcases List.mem_cons.mp hd with rfl | hd
        · exact Nat.lt_succ_self n
        · exact Nat.lt_succ_of_lt (h _ List.mem_cons_self d hd)
      · exact Nat.lt_succ_of_lt (h decls (List.mem_cons_of_mem _ hdecls) d hd)

/-- The register that a name stands for. -/
theorem NumbersBelow.resolve_lt (h : NumbersBelow blocks n) (hle : n ≤ m) (hpos : 0 < m)
    (varName : Range) : (resolve (fun _ => none) blocks varName).getD 0 < m := by
  unfold resolve
  rw [Option.or_none]
  cases ha : blocks.findSome? fun decls => decls.lookup varName with
  | none => exact hpos
  | some a =>
      obtain ⟨decls, hdecls, hlookup⟩ := List.exists_of_findSome?_eq_some ha
      obtain ⟨l, l', rfl, -⟩ := List.lookup_eq_some_iff.mp hlookup
      exact Nat.lt_of_lt_of_le (h _ hdecls (varName, a) (by simp)) hle

/-- The registers of instructions are below `m`. -/
def RegsBelow (types : List InstType) (m : ℕ) : Prop := ∀ t ∈ types, ∀ a, t.rId = some a → a < m

theorem regsBelow_append {types types' : List InstType} :
    RegsBelow (types ++ types') m ↔ RegsBelow types m ∧ RegsBelow types' m := by
  unfold RegsBelow
  simp only [List.mem_append]
  exact ⟨fun h => ⟨fun t ht => h t (.inl ht), fun t ht => h t (.inr ht)⟩,
    fun h t ht => ht.elim (h.1 t) (h.2 t)⟩

theorem regsBelow_assignVar {a : ℕ} (ha : a < m) : RegsBelow [.assignVar a] m := by
  intro t ht b hb
  rw [List.mem_singleton.mp ht] at hb
  cases hb
  exact ha

/-- Instructions without registers. -/
theorem regsBelow_jumps {types : List InstType} (h : ∀ t ∈ types, t.rId = none) :
    RegsBelow types m := fun t ht a ha => by
  rw [h t ht] at ha
  cases ha

theorem regsBelow_expression {rIds : Range → Option ℕ} (hrIds : ∀ name, (rIds name).getD 0 < m)
    (e : Expression) : RegsBelow (e.code rIds) m := by
  induction e with
  | number num => exact fun t ht => by cases ht
  | var varName =>
      intro t ht a ha
      rw [List.mem_singleton.mp ht] at ha
      cases ha
      exact hrIds varName
  | binary op left right ihl ihr =>
      rw [Expression.code, regsBelow_append, regsBelow_append]
      exact ⟨⟨ihl, ihr⟩, regsBelow_jumps (by simp [InstType.rId])⟩

/-- **The registers of statements** are those of their declarations. -/
theorem regsBelow_code {ss : Statements} (h : NumbersBelow blocks n) (hm : n + ss.declarations ≤ m)
    (hpos : 0 < m) : RegsBelow (ss.code (fun _ => none) blocks n) m := by
  induction ss generalizing blocks n with
  | done => exact fun t ht => by cases ht
  | assign varName value rest ih =>
      rw [Statements.declarations] at hm
      have hname := h.resolve_lt (show n ≤ m by omega) hpos
      rw [Statements.code, regsBelow_append, regsBelow_append]
      exact ⟨⟨regsBelow_expression hname value, regsBelow_assignVar (hname _)⟩, ih h hm⟩
  | declare dataType op varName value rest ih =>
      rw [Statements.declarations] at hm
      have hdeclare := h.declareIn varName
      have hname := hdeclare.resolve_lt (show n + 1 ≤ m by omega) hpos
      rw [Statements.code, regsBelow_append, regsBelow_append]
      exact ⟨⟨regsBelow_expression hname value, regsBelow_assignVar (by omega)⟩,
        ih hdeclare (by omega)⟩
  | ifThen condition body rest ihbody ihrest =>
      rw [Statements.declarations] at hm
      have hname := h.resolve_lt (show n ≤ m by omega) hpos
      rw [Statements.code, regsBelow_append, regsBelow_append, regsBelow_append]
      exact ⟨⟨⟨regsBelow_expression hname condition, ihbody h.nest (by omega)⟩,
        regsBelow_jumps (by simp [InstType.rId])⟩,
        ihrest (h.mono (Nat.le_add_right _ _)) (by omega)⟩
  | whileDo condition body rest ihbody ihrest =>
      rw [Statements.declarations] at hm
      have hname := h.resolve_lt (show n ≤ m by omega) hpos
      have hjump : RegsBelow [.jump] m := regsBelow_jumps (by simp [InstType.rId])
      simp only [Statements.code, regsBelow_append]
      exact ⟨⟨⟨⟨⟨hjump, ihbody h.nest (by omega)⟩, hjump⟩, regsBelow_expression hname condition⟩,
        regsBelow_jumps (by simp [InstType.rId])⟩,
        ihrest (h.mono (Nat.le_add_right _ _)) (by omega)⟩
  | ret rest ih =>
      rw [Statements.code, regsBelow_append]
      exact ⟨regsBelow_jumps (by simp [InstType.rId]), ih h hm⟩
  | other node hignored rest ih => exact ih h hm

end Registers

/-! ## The form of created functions -/

section Created

variable {c inner : IrCreator} {body : Statements} (hheap : HeapClosed c.ctx)
  (h : createStatements c.enterBlock body.toAst = some inner)
include hheap h

omit hheap in
/-- The instructions of a created function are the code of its body. -/
theorem created_emitted (hinfo : c.blockInfo = []) :
    Emitted (blockNew c.ctx).1 inner.ctx (body.code (fun _ => none) [[]] c.regCount) := by
  have hemitted : Emitted (blockNew c.ctx).1 inner.ctx
      (body.code (outerRegs c.blockInfo) [[]] c.regCount) :=
    createStatements_emitted (c := c.enterBlock) (Nat.lt_succ_self _) (List.cons_ne_nil _ _)
      (.enterBlock .outer) h
  have houter : outerRegs c.blockInfo = fun _ => none := by
    rw [hinfo]
    rfl
  rwa [houter] at hemitted

/-- The registers of a created function are ints. -/
theorem created_intReg (hinfo : c.blockInfo = []) (hregs : c.regCount + body.declarations ≤ 2 ^ 32)
    {b i a : ℕ} (hb : Reachable (cfgEdge inner.ctx) c.ctx.blockCount b)
    (hi : i ∈ inner.ctx.blocks b) (ha : (inner.ctx.insts i).type.rId = some a) : IntReg a := by
  have hemitted := created_emitted h hinfo
  have hbelow : RegsBelow (body.code (fun _ => none) [[]] c.regCount) (2 ^ 32) :=
    regsBelow_code (by simp [NumbersBelow]) hregs (by decide)
  have hlt : i < inner.ctx.instCount := (created_heap hheap h).allocated b i hi
  have hge := (created_new hheap h (created_reachable hheap h hb) hi).1
  refine hbelow _ ?_ a ha
  rw [← hemitted.types, List.mem_map]
  refine ⟨i, List.mem_range'_1.mpr ⟨hge, ?_⟩, rfl⟩
  rw [← hemitted.instCount]
  exact hlt

theorem created_ssaFunction (hinfo : c.blockInfo = [])
    (hregs : c.regCount + body.declarations ≤ 2 ^ 32) :
    SsaFunction inner.ctx c.ctx.blockCount where
  reg _ hb _ hi _ ha := created_intReg hheap h hinfo hregs hb hi ha
  assign := (createdForm hheap h).assign
  jump := (createdForm hheap h).jump
  operand := (createdForm hheap h).operand

theorem created_binaryOperands : BinaryOperands inner.ctx c.ctx.blockCount := by
  intro b hb i hi op htype
  obtain ⟨pre, post, hblock⟩ := List.append_of_mem hi
  have hmade := (created_made hheap h).made b (created_reachable hheap h hb) pre i post hblock
  rw [htype] at hmade
  generalize (inner.ctx.insts i).uses = uses at hmade ⊢
  cases hmade
  exact ⟨_, _, rfl⟩

end Created

/-! ## The analyses -/

section Frontiers

variable {c inner : IrCreator} {body : Statements} (hheap : HeapClosed c.ctx)
  (h : createStatements c.enterBlock body.toAst = some inner)
include hheap h

/-- A created block has at most two uses. -/
theorem created_fewUses {b : ℕ} (hb : Reachable (cfgEdge inner.ctx) c.ctx.blockCount b) :
    (inner.ctx.uses (.block b)).length ≤ 2 := by
  by_cases hne : b = c.ctx.blockCount
  · -- nothing leads to the entry
    rw [hne, created_root hheap h]
    exact Nat.zero_le 2
  · exact (created_entered hheap h (Nat.lt_of_le_of_ne (created_reachable hheap h hb)
      (Ne.symm hne)) (created_lt hheap h hb)).few

/-- A created block is in a frontier for one of its two predecessors only: the other one is its
immediate dominator. -/
theorem created_frontierEntries {x y : ℕ} (hy : Reachable (cfgEdge inner.ctx) c.ctx.blockCount y) :
    frontierEntries inner.ctx c.ctx.blockCount x y ≤ 1 := by
  by_cases hne : y = c.ctx.blockCount
  · -- nothing leads to the entry
    unfold frontierEntries blockPredecessors
    rw [hne, created_root hheap h]
    exact Nat.zero_le 1
  · obtain ⟨d, hhead, -, hidom⟩ := created_isIDom hheap h hy hne
    have hfew : (blockPredecessors inner.ctx y).length ≤ 2 := by
      unfold blockPredecessors
      rw [List.length_map]
      exact created_fewUses hheap h hy
    unfold frontierEntries
    obtain ⟨rest, hrest⟩ := List.head?_eq_some_iff.mp hhead
    rw [hrest] at hfew ⊢
    -- what dominates the immediate dominator strictly dominates the block
    rw [List.countP_cons_of_neg]
    · exact List.countP_le_length.trans (Nat.le_of_succ_le_succ hfew)
    · intro hx
      simp only [decide_eq_true_eq] at hx
      obtain ⟨hxd, hnot⟩ := hx
      exact hnot ((hidom.strictlyDominates_iff hy).mpr hxd)

/-- **The frontiers of a created function** fit their buffers if its postorder does. -/
theorem created_frontiers {fuel : ℕ} {doms : Dominators}
    (hcfg : UsesAreEdges inner.ctx c.ctx.blockCount)
    (hdoms : TrueIDoms inner.ctx c.ctx.blockCount doms) (hfew : doms.postorder.length ≤ 250)
    (hfuel : doms.postorder.length < fuel) :
    ∃ df, domfrontiersCompute inner.ctx doms fuel = some df ∧ FrontiersStored df ∧
      CorrectFrontiers inner.ctx c.ctx.blockCount df := by
  obtain ⟨df, hrun, hlists⟩ := domfrontiersCompute_lists hcfg hdoms hfuel
  refine ⟨df, hrun, frontiersStored_iff.mpr fun x => ?_,
    fun x _ y => domfrontiersCompute_frontier hcfg hdoms (hlists x)⟩
  rw [hlists, length_frontierList]
  calc (doms.postorder.map (frontierEntries inner.ctx c.ctx.blockCount x)).sum
      ≤ (doms.postorder.map (frontierEntries inner.ctx c.ctx.blockCount x)).length * 1 :=
        List.sum_le_card_nsmul _ 1 (List.forall_mem_map.mpr fun y hy =>
          created_frontierEntries hheap h ((hdoms.mem y).mp hy))
    _ = doms.postorder.length := by rw [List.length_map, Nat.mul_one]
    _ ≤ 250 := hfew

end Frontiers

/-- What `dominators_compute` computes is what the conversion needs. -/
theorem ComputedDominators.correctDoms {ir : Ir} {entry : ℕ} {doms : Dominators}
    (h : ComputedDominators ir entry doms) : CorrectDoms ir entry doms where
  toTrueIDoms := h.trueIDoms
  nodup := h.numbered.postorder.nodup
  number _ _ hi := h.numbered.postorder.getNumber h.numbered.fits hi
  childs b hb := by
    obtain ⟨x, hx⟩ := h.numbered.postorder.exists_number hb
    exact ⟨_, h.childs_eq hx, fun c => h.mem_children hx⟩

/-! ## More steps -/

theorem climb_mono {doms : List ℕ} {b fuel fuel' a c : ℕ} (hle : fuel ≤ fuel')
    (h : climb doms b fuel a = some c) : climb doms b fuel' a = some c := by
  induction fuel generalizing fuel' a with
  | zero => cases h
  | succ fuel ih =>
      obtain ⟨fuel', rfl⟩ := Nat.exists_eq_add_of_le' (Nat.one_le_of_lt hle)
      rw [climb] at h ⊢
      split at h
      · rename_i hlt
        obtain ⟨a', ha', hrest⟩ := Option.bind_eq_some_iff.mp h
        rw [if_pos hlt, ha']
        exact ih (Nat.le_of_succ_le_succ hle) hrest
      · rename_i hlt
        rw [if_neg hlt]
        exact h

theorem intersect_mono {doms : List ℕ} {fuel fuel' a b c : ℕ} (hle : fuel ≤ fuel')
    (h : intersect doms fuel a b = some c) : intersect doms fuel' a b = some c := by
  induction fuel generalizing fuel' a b with
  | zero => cases h
  | succ fuel ih =>
      obtain ⟨fuel', rfl⟩ := Nat.exists_eq_add_of_le' (Nat.one_le_of_lt hle)
      rw [intersect] at h ⊢
      split at h
      · rename_i heq
        rw [if_pos heq]
        exact h
      · rename_i hne
        obtain ⟨a', ha', h⟩ := Option.bind_eq_some_iff.mp h
        obtain ⟨b', hb', h⟩ := Option.bind_eq_some_iff.mp h
        rw [if_neg hne]
        exact Option.bind_eq_some_iff.mpr ⟨a', climb_mono hle ha', Option.bind_eq_some_iff.mpr
          ⟨b', climb_mono hle hb', ih (Nat.le_of_succ_le_succ hle) h⟩⟩

section MoreSteps

variable {ir : Ir} {nodeToNum : ℕ → Option ℤ} {postorder : List ℕ} {fuel fuel' : ℕ}
  (hle : fuel ≤ fuel')
include hle

theorem newDominator_mono {doms : List ℕ} {i d : ℕ}
    (h : newDominator ir nodeToNum postorder doms fuel i = some d) :
    newDominator ir nodeToNum postorder doms fuel' i = some d := by
  unfold newDominator at h ⊢
  obtain ⟨block, hblock, h⟩ := Option.bind_eq_some_iff.mp h
  refine Option.bind_eq_some_iff.mpr ⟨block, hblock, ?_⟩
  cases hpreds : blockPredecessors ir block with
  | nil =>
      rw [hpreds] at h
      exact h
  | cons predBlock predBlocks =>
      rw [hpreds] at h
      obtain ⟨newDom, hnew, h⟩ := Option.bind_eq_some_iff.mp h
      refine Option.bind_eq_some_iff.mpr ⟨newDom, hnew, Loop.foldlM_mono (fun s p s' hs' => ?_) _ h⟩
      obtain ⟨num, hnum, hs'⟩ := Option.bind_eq_some_iff.mp hs'
      refine Option.bind_eq_some_iff.mpr ⟨num, hnum, ?_⟩
      unfold meetPredecessor at hs' ⊢
      obtain ⟨x, hx, hs'⟩ := Option.bind_eq_some_iff.mp hs'
      refine Option.bind_eq_some_iff.mpr ⟨x, hx, ?_⟩
      split at hs'
      · rename_i hmax
        rw [if_pos hmax]
        exact hs'
      · rename_i hmax
        rw [if_neg hmax]
        exact intersect_mono hle hs'

theorem dominatorsRound_mono {elementCount : ℕ} {doms : List ℕ} {r : List ℕ × Bool}
    (h : dominatorsRound ir nodeToNum postorder elementCount fuel doms = some r) :
    dominatorsRound ir nodeToNum postorder elementCount fuel' doms = some r := by
  refine Loop.foldlM_mono (fun s i s' hs' => ?_) _ h
  obtain ⟨newDom, hnew, hs'⟩ := Option.bind_eq_some_iff.mp hs'
  exact Option.bind_eq_some_iff.mpr ⟨newDom, newDominator_mono hle hnew, hs'⟩

theorem dominatorsLoop_mono {elementCount rounds rounds' : ℕ} (hrounds : rounds ≤ rounds')
    {doms doms' : List ℕ}
    (h : dominatorsLoop ir nodeToNum postorder elementCount fuel rounds doms = some doms') :
    dominatorsLoop ir nodeToNum postorder elementCount fuel' rounds' doms = some doms' := by
  induction rounds generalizing rounds' doms with
  | zero => cases h
  | succ rounds ih =>
      obtain ⟨rounds', rfl⟩ := Nat.exists_eq_add_of_le' (Nat.one_le_of_lt hrounds)
      rw [dominatorsLoop] at h ⊢
      obtain ⟨⟨doms₁, changed⟩, hround, h⟩ := Option.bind_eq_some_iff.mp h
      refine Option.bind_eq_some_iff.mpr ⟨_, dominatorsRound_mono hle hround, ?_⟩
      dsimp only at h ⊢
      split at h
      · rename_i hchanged
        rw [if_pos hchanged]
        exact ih (Nat.le_of_succ_le_succ hrounds) h
      · rename_i hchanged
        rw [if_neg hchanged]
        exact h

/-- A computation that ends does so with more steps too. -/
theorem dominatorsCompute_mono {entry : ℕ} {doms : Dominators}
    (h : dominatorsCompute ir fuel entry = some doms) :
    dominatorsCompute ir fuel' entry = some doms := by
  unfold dominatorsCompute at h ⊢
  obtain ⟨s, hs, h⟩ := Option.bind_eq_some_iff.mp h
  refine Option.bind_eq_some_iff.mpr ⟨s, visit_mono hle _ _ _ hs, ?_⟩
  dsimp only at h ⊢
  split at h
  · rename_i hzero
    rw [if_pos hzero]
    exact h
  · rename_i hzero
    rw [if_neg hzero]
    obtain ⟨doms', hloop, h⟩ := Option.bind_eq_some_iff.mp h
    exact Option.bind_eq_some_iff.mpr ⟨doms', dominatorsLoop_mono hle hle hloop, h⟩

theorem domfrontiersCompute_mono {doms : Dominators} {df : DomFrontiers}
    (h : domfrontiersCompute ir doms fuel = some df) :
    domfrontiersCompute ir doms fuel' = some df := by
  have hrunner : ∀ {block dom : ℕ} {df df' : DomFrontiers} {runner : ℕ},
      dfRunner doms block dom fuel df runner = some df' →
        dfRunner doms block dom fuel' df runner = some df' := by
    clear h
    intro block dom
    induction fuel generalizing fuel' with
    | zero => intro df df' runner h; cases h
    | succ fuel ih =>
        intro df df' runner h
        obtain ⟨fuel', rfl⟩ := Nat.exists_eq_add_of_le' (Nat.one_le_of_lt hle)
        rw [dfRunner] at h ⊢
        split at h
        · rename_i heq
          rw [if_pos heq]
          exact h
        · rename_i hne
          obtain ⟨next, hnext, h⟩ := Option.bind_eq_some_iff.mp h
          rw [if_neg hne]
          exact Option.bind_eq_some_iff.mpr ⟨next, hnext, ih (Nat.le_of_succ_le_succ hle) h⟩
  refine Loop.foldlM_mono (fun s i s' hs' => ?_) _ h
  obtain ⟨block, hblock, hs'⟩ := Option.bind_eq_some_iff.mp hs'
  refine Option.bind_eq_some_iff.mpr ⟨block, hblock, Loop.foldlM_mono (fun s p s' hs' => ?_) _ hs'⟩
  obtain ⟨dom, hdom, hs'⟩ := Option.bind_eq_some_iff.mp hs'
  exact Option.bind_eq_some_iff.mpr ⟨dom, hdom, hrunner hs'⟩

end MoreSteps

/-! ## The chain -/

/-- What the chain makes of a function: the dominators and frontiers of the created function, in
lists that fit their buffers, and the function that the conversion makes with as many steps as are
needed or more, if its own buffers do not end. -/
structure FunctionConverted (creator : IrCreator) (f : AstNode) (ir : Ir) (entry : ℕ)
    (doms : Dominators) (df : DomFrontiers) (ir' : Ir) : Prop where
  created : ∃ creator', irCreatorCreateFunction creator f = some (creator', entry) ∧
    creator'.ctx = ir
  computed : ∃ fuel, dominatorsCompute ir fuel entry = some doms
  correctDoms : CorrectDoms ir entry doms
  climbed : ∃ fuel, domfrontiersCompute ir doms fuel = some df
  frontiersStored : FrontiersStored df
  correctFrontiers : CorrectFrontiers ir entry df
  renamed : ∃ fuel, ssaConvert doms df fuel ir entry = some ir'
  converted : ∃ bound, ∀ fuel, bound ≤ fuel → convertFunction creator f fuel = some (ir', entry)

/-- **The chain ends.**  The analyses of a created function are right, and it is converted. -/
theorem exists_functionConverted {creator : IrCreator} (hheap : HeapClosed creator.ctx)
    (hinfo : creator.blockInfo = []) (name : Range) (returnType : TokenType) {body : Statements}
    (hscoped : body.WellScoped [fun _ => none] creator.regCount)
    (hblocks : body.liveBlocks ≤ 249)
    (hmemory : 8 * (creator.ctx.blockCount + 1 + body.blockCount) < 2 ^ 64) :
    ∃ inner doms df ir', createStatements creator.enterBlock body.toAst = some inner ∧
      FunctionConverted creator (functionAst name returnType body) inner.ctx
        creator.ctx.blockCount doms df ir' := by
  obtain ⟨inner, hinner⟩ := createBody_succeeds hinfo hscoped
  rw [← created_blockCount hheap hinner] at hmemory
  have hshape := createdShape hheap hinner hmemory
  have hcreate : irCreatorCreateFunction creator (functionAst name returnType body) =
      some (creator.leaveBlock inner, creator.ctx.blockCount) :=
    createFunction_eq_some.mpr ⟨name, returnType, body.toAst, [], inner, rfl, hinner, rfl⟩
  obtain ⟨doms, hdoms, hcomputed⟩ := dominatorsCompute_spec hshape
    (by rw [created_ncard hheap hinner]; omega) (Nat.lt_succ_self _)
  have hfew : doms.postorder.length ≤ 250 := by
    rw [← length_postorder hdoms, created_ncard hheap hinner]
    omega
  obtain ⟨df, hdf, hstored, hfrontiers⟩ := created_frontiers hheap hinner hshape.usesAreEdges
    hcomputed.trueIDoms hfew (Nat.lt_succ_self _)
  obtain ⟨bound, hconvert⟩ := (createdForm hheap hinner).converted
    (created_heap hheap hinner).toHeapOk (created_loadsDominated hheap hinner hinfo hscoped)
    hcomputed.correctDoms hfrontiers
  obtain ⟨ir', hir'⟩ := hconvert bound (Nat.le_refl _)
  refine ⟨inner, doms, df, ir', hinner, ⟨_, hcreate, rfl⟩, ⟨_, hdoms⟩, hcomputed.correctDoms,
    ⟨_, hdf⟩, hstored, hfrontiers, ⟨_, hir'⟩, ?_⟩
  generalize (inner.ctx.blockCount * inner.ctx.blockCount + 2 * inner.ctx.blockCount + 1).succ = k
    at hdoms
  generalize doms.postorder.length.succ = k' at hdf
  refine ⟨k + k' + bound, fun fuel hfuel => ?_⟩
  have hk : k ≤ fuel := by omega
  have hk' : k' ≤ fuel := by omega
  have hbound : bound ≤ fuel := by omega
  exact Option.bind_eq_some_iff.mpr ⟨_, hcreate, Option.bind_eq_some_iff.mpr ⟨doms,
    dominatorsCompute_mono hk hdoms, Option.bind_eq_some_iff.mpr ⟨df,
      domfrontiersCompute_mono hk' hdf, Option.bind_eq_some_iff.mpr ⟨ir',
        ssaConvert_mono hbound hir', rfl⟩⟩⟩⟩

/-! ## The meaning -/

section Filling

variable {ir ir' : Ir} {entry fuel : ℕ} {doms : Dominators} {df : DomFrontiers}

/-- A conversion is a placement of phis, a renaming, and the removal of unused phis; the phis
suffice if those of the first variable do. -/
theorem exists_filling (hheap : HeapOk ir) (hdoms : CorrectDoms ir entry doms)
    (hform : SsaFunction ir entry) (hfree : PhiFree ir entry) (hdf : CorrectFrontiers ir entry df)
    (hrun : ssaConvert doms df fuel ir entry = some ir') :
    ∃ phis r done pushed mid mid' doms', Converted ir entry phis r done pushed mid mid' ir' ∧
      RenamedFilling ir entry phis doms' r done pushed mid mid' ∧
      (FirstPhisSuffice ir entry doms → PhisSuffice ir entry phis) := by
  obtain ⟨_, _, _, _, _, _, _, _, han, -, hplaced, -, hconverted⟩ :=
    converted_of_ssaConvert hheap hdoms hform hdf.reachable hrun
  obtain ⟨doms', hrenamed⟩ := hconverted.renamedFilling hheap hform hfree
  exact ⟨_, _, _, _, _, _, doms', hconverted, hrenamed,
    hplaced.phisSuffice hdoms hform.toLoadAssignForm han hdf⟩

theorem Converted.sameMeaning {phis : ℕ → List PhiInfo} {r : Renaming} {done : List ℕ}
    {pushed : List PhiOperand} {mid mid' : Ir}
    (h : Converted ir entry phis r done pushed mid mid' ir')
    (hrenamed : RenamedFilling ir entry phis doms r done pushed mid mid')
    (hsuffice : PhisSuffice ir entry phis) (hassigned : LoadsAssigned ir entry) {V : Type}
    (sem : ValueSemantics V) : SameMeaning sem ir ir' entry := by
  refine fun w b => ⟨?_, fun hw => ?_⟩
  · exact (walk_congr fun a ha x => h.cfgEdge_iff hrenamed.heap ha x).symm
  · rw [h.trace_eq sem w]
    exact hrenamed.trace_eq hsuffice hassigned hw

end Filling

/-! ### A loop that counts -/

/-- `int64 a = 1; while (a) a = a - 1;`. -/
def countLoop : Statements :=
  .declare .KW_INT64 .ASSIGN [97] (.number 1)
    (.whileDo (.var [97]) (.assign [97] (.binary .sub (.var [97]) (.number 1)) .done) .done)

/-- The blocks before its condition, the condition, its body and the block behind it. -/
def countChain : ℕ → List ℕ
  | 0 => [0]
  | 1 => [0, 1]
  | 2 => [0, 1, 2]
  | _ => [0, 1, 3]

@[inherit_doc countChain]
def countFrontiers : DomFrontiers := ⟨fun b => if b = 1 ∨ b = 2 then some [1] else none⟩

/-- The phi of the condition suffices: the body assigns the variable. -/
theorem firstPhisSuffice_countLoop {name : Range} {returnType : TokenType} {creator' : IrCreator}
    {entry : ℕ} (doms : Dominators)
    (hcreate : irCreatorCreateFunction (irCreatorInit irContextInit)
      (functionAst name returnType countLoop) = some (creator', entry)) :
    FirstPhisSuffice creator'.ctx entry doms := by
  obtain ⟨r, hr, hentry, hchains, hdf, hregs, i, hi, hassign⟩ : ∃ r,
      irCreatorCreateFunction (irCreatorInit irContextInit) (functionAst [] .KW_VOID countLoop) =
        some r ∧ r.2 = 0 ∧ Chains r.1.ctx 0 4 countChain ∧
      ChainsFrontiers r.1.ctx 4 countChain countFrontiers ∧
      (∀ b < 4, ∀ i ∈ r.1.ctx.blocks b, ∀ a ∈ (r.1.ctx.insts i).type.rId, a = 0) ∧
      ∃ i ∈ r.1.ctx.blocks 2, (r.1.ctx.insts i).type = .assignVar 0 := by
    decide +kernel
  obtain rfl := Option.some.inj (hr.symm.trans hcreate)
  obtain rfl : entry = 0 := hentry
  have hfrontiers : CorrectFrontiers creator'.ctx 0 countFrontiers := hchains.correctFrontiers hdf
  have hreach : ∀ b, Reachable (cfgEdge creator'.ctx) 0 b ↔ b < 4 := fun b => hchains.reachable_iff
  have hjoin : ∀ x, Reachable (cfgEdge creator'.ctx) 0 x → ∀ b,
      Frontier (cfgEdge creator'.ctx) 0 x b → b = 1 := by
    intro x hx b hb
    have hall : ∀ x < 4, ∀ y ∈ domfrontiersGet countFrontiers x, y = 1 := by decide
    exact hall x ((hreach x).mp hx) b ((hfrontiers x hx b).mpr hb)
  intro a _ b hb _
  have ha : a = 0 := by
    obtain ⟨x, hx, j, hj, hja⟩ := hb.exists_start
    exact hregs _ ((hreach _).mp hx) j hj a (by rw [hja]; rfl)
  have hb1 : b = 1 := by
    obtain ⟨x, hx, hxb⟩ := hb.exists_frontier fun _ hx => hx.1
    exact hjoin x hx b hxb
  subst ha hb1
  have hbody : Reachable (cfgEdge creator'.ctx) 0 2 := (hreach 2).mpr (by decide)
  exact ⟨2, ⟨hbody, i, hi, hassign⟩, (hfrontiers 2 hbody 1).mp (by decide)⟩
