/-
# Dumping a function (`ir.c`)

`function_dump` and `function_dumpDot` visit the blocks of a function level by level, with a
buffer for the level, one for the next level and a set of the blocks visited.  The text of a
block goes to the buffer `content`, which is cleared for each block; `function_dumpDot` adds it
to a graph, whose text is in one buffer, too.  All of them come from `dbuffer_init`.

* `dumpLoop_order_iff` : the loops print the blocks in the order of the search by levels, if the
  levels fit in their buffers;
* `functionDump_visits_iff` : both end, print every reachable block once and no other block,
  and `function_dumpDot` adds the successors of every block, exactly if the levels, the text of
  each block and the text of the graph fit in their buffers.
-/
import MCompiler.DominatorsVisit
import MCompiler.DotBuilder
import MCompiler.IrTextLength
import MCompiler.Lib.LevelSearch
import MCompiler.SsaIteratedFrontier

open FlowGraph

/-! ## The loop over the levels -/

/-- The set of the blocks visited, the next level and what the printing changes. -/
structure DumpState (σ : Type) where
  visited : ℕ → Bool
  newVisit : List ℕ
  printed : σ

section Loop

-- `print` is what is done for a block that has not been visited
variable {σ : Type} (ir : Ir) (print : σ → ℕ → Option σ)

/-- The loop body for a block of the level. -/
def dumpVisit (s : DumpState σ) (block : ℕ) : Option (DumpState σ) :=
  if s.visited block then some s
  else do
    let printed ← print s.printed block
    return { visited := Function.update s.visited block true
             newVisit := s.newVisit ++ blockSuccessors ir block
             printed := printed }

/-- The loop over the levels.  The buffer for the next level is empty at the start of a level and
only grows in it, so that it is enough to look at it when the level is done. -/
def dumpLoop : ℕ → List ℕ → (ℕ → Bool) → σ → Option σ
  | 0, _, _, _ => none
  | fuel + 1, toVisit, visited, printed =>
      if toVisit = [] then some printed
      else do
        let s ← toVisit.foldlM (dumpVisit ir print) ⟨visited, [], printed⟩
        guard (PointersStored 1000 s.newVisit.length)
        dumpLoop fuel s.newVisit s.visited s.printed

end Loop

/-! ## The functions -/

/-- What `function_dump` changes: the names, the buffer for the text of a block, and what has
been printed, block by block. -/
structure TextState where
  names : ValueNames
  content : LoggedBuffer
  printed : List (ℕ × List UInt8)

/-- What `function_dumpDot` adds to the graph. -/
inductive DotItem where
  | node (block : ℕ)
  | edge (block succ : ℕ)
  deriving DecidableEq

/-- What `function_dumpDot` changes. -/
structure DotState where
  names : ValueNames
  content : LoggedBuffer
  graph : DotGraph
  items : List DotItem

/-- A block of the graph: the node, and an edge for each item of the iterator over the
successors. -/
def dotItems (ir : Ir) (block : ℕ) : List DotItem :=
  .node block :: (blockSuccessors ir block).map (.edge block)

section Functions

-- the addresses of the blocks
variable (ir : Ir) (annotations : IrPrintAnnotations) (addr : ℕ → UInt64)

/-- `function_dump` for a block: it is written to the buffer, and the buffer printed. -/
def printBlock (s : TextState) (block : ℕ) : Option TextState := do
  let content ← blockDumpd ir false annotations block ⟨s.names, s.content.clear⟩
  guard content.buffer.d.Good
  let printed ← printRange content.buffer.d.contents
  return { names := content.names
           content := content.buffer
           printed := s.printed ++ [(block, printed ++ stringBytes "\n")] }

/-- `function_dump`, behind its first line. -/
def functionDump (fuel entry : ℕ) (names : ValueNames) : Option TextState :=
  dumpLoop ir (printBlock ir annotations) fuel [entry] (fun _ => false)
    ⟨names, ⟨dbufferInitSize 1000, []⟩, []⟩

/-- `function_dumpDot` for a block: its text is the label of the node. -/
def dotBlock (s : DotState) (block : ℕ) : Option DotState := do
  let label := s.content.clear.pushStr (stringBytes "label=\"")
  let content ← blockDumpd ir true annotations block ⟨s.names, label⟩
  let nodeId := getNodeId (addr block)
  let buffer := (content.buffer.pushChar (byte '"')).pushChar 0
  guard buffer.d.Good
  let graph := graphSetNodeProps s.graph nodeId (cString buffer.d.contents)
  return { names := content.names
           content := buffer
           graph := ((blockSuccessors ir block).map fun succ => getNodeId (addr succ)).foldl
             (fun graph childId => graphAddEdge graph nodeId childId) graph
           items := s.items ++ dotItems ir block }

/-- What `function_dumpDot` starts with. -/
def dotStart (names : ValueNames) : DotState :=
  let graph := graphInit "function_graph" true
  let graph := graphSetNodeProps graph (stringBytes "node") (stringBytes "shape=rect")
  ⟨names, ⟨dbufferInitSize 1000, []⟩, graph, []⟩

/-- `function_dumpDot`, with the string that is printed. -/
def functionDumpDot (fuel entry : ℕ) (names : ValueNames) :
    Option (DotState × List UInt8) := do
  let s ← dumpLoop ir (dotBlock ir annotations addr) fuel [entry] (fun _ => false)
    (dotStart names)
  let result ← graphFinalize s.graph
  return (s, result)

end Functions

/-! ## The search behind the loop -/

section Search

variable {σ : Type} {ir : Ir} {print : σ → ℕ → Option σ}

/-- The state that belongs to a state of the search: the visited blocks are those seen. -/
def dumpStateOf (s : LevelSearch.State ℕ) (printed : σ) : DumpState σ where
  visited block := decide (block ∈ s.seen)
  newVisit := s.found
  printed := printed

/-- **The visits of a level** print the blocks that the search adds. -/
theorem dumpVisit_foldlM (level : List ℕ) : ∀ s : LevelSearch.State ℕ, ∃ new : List ℕ,
    level.foldl (LevelSearch.visit (blockSuccessors ir)) s =
        ⟨s.seen ++ new, s.found ++ new.flatMap (blockSuccessors ir)⟩ ∧
      ∀ printed, level.foldlM (dumpVisit ir print) (dumpStateOf s printed) =
        (new.foldlM print printed).map
          (dumpStateOf (level.foldl (LevelSearch.visit (blockSuccessors ir)) s)) := by
  induction level with
  | nil => exact fun s => ⟨[], by simp, fun printed => rfl⟩
  | cons block level ih =>
      intro s
      rw [List.foldl_cons]
      obtain ⟨new, hnew, hprint⟩ := ih (LevelSearch.visit (blockSuccessors ir) s block)
      have hvisited : ∀ printed : σ, (dumpStateOf s printed).visited block =
          decide (block ∈ s.seen) := fun _ => rfl
      by_cases hseen : block ∈ s.seen
      · have hsame : LevelSearch.visit (blockSuccessors ir) s block = s := if_pos hseen
        rw [hsame] at hnew hprint ⊢
        refine ⟨new, hnew, fun printed => ?_⟩
        rw [List.foldlM_cons, dumpVisit, if_pos (by rw [hvisited]; exact decide_eq_true hseen)]
        exact hprint printed
      · have hone : LevelSearch.visit (blockSuccessors ir) s block =
            ⟨s.seen ++ [block], s.found ++ blockSuccessors ir block⟩ := if_neg hseen
        rw [hone] at hnew hprint ⊢
        refine ⟨block :: new, by rw [hnew]; simp, fun printed => ?_⟩
        have hstep : dumpVisit ir print (dumpStateOf s printed) block =
            (print printed block).map
              (dumpStateOf ⟨s.seen ++ [block], s.found ++ blockSuccessors ir block⟩) := by
          rw [dumpVisit, if_neg (by rw [hvisited]; simpa using hseen)]
          show (print printed block).bind _ = _
          rw [Option.map_eq_bind]
          congr 1
          funext printed'
          refine congrArg some (DumpState.mk.injEq _ _ _ _ _ _ ▸ ⟨?_, rfl, rfl⟩)
          funext x
          by_cases hx : x = block
          · subst hx
            simp
          · simp [hx, dumpStateOf]
        rw [List.foldlM_cons, List.foldlM_cons, hstep]
        cases hprinted : print printed block with
        | none => rfl
        | some printed' => exact hprint printed'

/-- **The loop** prints the blocks that the search visits, if each level that it finds has at
most 250 pointers. -/
theorem dumpLoop_search_iff (fuel : ℕ) : ∀ {level seen : List ℕ} {printed result : σ},
    dumpLoop ir print fuel level (fun block => decide (block ∈ seen)) printed = some result ↔
      ∃ rest, LevelSearch.search (blockSuccessors ir) fuel level seen = some (seen ++ rest) ∧
        LevelSearch.NextLevels (blockSuccessors ir) (fun found => found.length ≤ 250) fuel level
          seen ∧ rest.foldlM print printed = some result := by
  induction fuel with
  | zero =>
      intro level seen printed result
      refine iff_of_false nofun ?_
      rintro ⟨rest, hsearch, -⟩
      cases hsearch
  | succ fuel ih =>
      intro level seen printed result
      rw [dumpLoop, LevelSearch.search, LevelSearch.NextLevels]
      by_cases hlevel : level = []
      · rw [if_pos hlevel, if_pos hlevel, if_pos hlevel]
        constructor
        · rintro ⟨⟩
          exact ⟨[], by rw [List.append_nil], trivial, rfl⟩
        · rintro ⟨rest, hrest, -, hprinted⟩
          have hnil : rest = [] := List.self_eq_append_right.mp (Option.some.inj hrest)
          rw [hnil] at hprinted
          exact hprinted
      · rw [if_neg hlevel, if_neg hlevel, if_neg hlevel]
        obtain ⟨new, hnew, hprint⟩ := @dumpVisit_foldlM _ ir print level ⟨seen, []⟩
        have hstart : (⟨fun block => decide (block ∈ seen), [], printed⟩ : DumpState σ) =
            dumpStateOf ⟨seen, []⟩ printed := rfl
        rw [hstart, hprint, hnew]
        dsimp only
        rw [List.nil_append]
        constructor
        · intro h
          obtain ⟨t, ht, h⟩ := Option.bind_eq_some_iff.mp h
          obtain ⟨printed', hprinted, rfl⟩ := Option.map_eq_some_iff.mp ht
          obtain ⟨_, hguard, h⟩ := Option.bind_eq_some_iff.mp h
          obtain ⟨rest, hsearch, hlevels, hrest⟩ := ih.mp h
          refine ⟨new ++ rest, hsearch.trans (congrArg some (List.append_assoc seen new rest)),
            ⟨?_, hlevels⟩, ?_⟩
          · exact pointersStored_init_iff.mp ((Option.guard_eq_some' _).mp hguard)
          · rw [List.foldlM_append, hprinted]
            exact hrest
        · rintro ⟨rest, hsearch, ⟨hlength, hlevels⟩, hprinted⟩
          obtain ⟨rest', hrest⟩ := LevelSearch.seen_prefix_search fuel hsearch
          rw [List.append_assoc] at hrest
          obtain rfl := List.append_cancel_left hrest
          rw [List.foldlM_append] at hprinted
          obtain ⟨printed', hprinted', hrest'⟩ := Option.bind_eq_some_iff.mp hprinted
          rw [hprinted']
          refine Option.bind_eq_some_iff.mpr ⟨_, rfl, Option.bind_eq_some_iff.mpr
            ⟨(), (Option.guard_eq_some' _).mpr (pointersStored_init_iff.mpr hlength), ?_⟩⟩
          exact ih.mpr ⟨rest', hsearch.trans (congrArg some (List.append_assoc seen new rest').symm),
            hlevels, hrest'⟩

variable {entry fuel : ℕ} {order : List ℕ} {printed result : σ}

/-- **The loop from the entry on.** -/
theorem dumpLoop_order_iff
    (horder : LevelSearch.search (blockSuccessors ir) fuel [entry] [] = some order) :
    dumpLoop ir print fuel [entry] (fun _ => false) printed = some result ↔
      LevelSearch.LevelsWithin (blockSuccessors ir) entry 250 ∧
        order.foldlM print printed = some result := by
  have hstart : (fun _ => false : ℕ → Bool) = fun block => decide (block ∈ ([] : List ℕ)) :=
    funext fun _ => (decide_eq_false List.not_mem_nil).symm
  rw [hstart, dumpLoop_search_iff, ← LevelSearch.nextLevels_iff horder]
  constructor
  · rintro ⟨rest, hrest, hlevels, hprinted⟩
    obtain rfl := Option.some.inj (horder.symm.trans hrest)
    exact ⟨hlevels, hprinted⟩
  · rintro ⟨hlevels, hprinted⟩
    exact ⟨order, horder, hlevels, hprinted⟩

/-- A loop that ends is over blocks that the search visits. -/
theorem exists_search_of_dumpLoop
    (h : dumpLoop ir print fuel [entry] (fun _ => false) printed = some result) :
    ∃ order, LevelSearch.search (blockSuccessors ir) fuel [entry] [] = some order := by
  have hstart : (fun _ => false : ℕ → Bool) = fun block => decide (block ∈ ([] : List ℕ)) :=
    funext fun _ => (decide_eq_false List.not_mem_nil).symm
  rw [hstart, dumpLoop_search_iff] at h
  obtain ⟨rest, hrest, -⟩ := h
  exact ⟨_, hrest⟩

end Search

/-! ## The text of a block -/

section Text

variable (ir : Ir) (annotations : IrPrintAnnotations)

/-- A block can be printed under these names: what is read is there, its text fits in the
buffer, and the precision of `printf` is not negative. -/
structure Printable (name : Value → List UInt8) (block : ℕ) : Prop where
  dumpable : Dumpable ir annotations block
  fits : FitsBuffer
    ((textPushes name (blockItems ir false annotations block)).map List.length)
  precision : 0 ≤ toInt (renderText name (blockItems ir false annotations block)).length

/-- What is printed of a block. -/
def blockLine (name : Value → List UInt8) (block : ℕ) : List UInt8 :=
  (printRange (renderText name (blockItems ir false annotations block))).getD [] ++
    stringBytes "\n"

/-- The pushes for the label of a block. -/
def labelPushes (name : Value → List UInt8) (block : ℕ) : List (List UInt8) :=
  stringBytes "label=\"" :: (textPushes name (blockItems ir true annotations block) ++
    [[byte '"'], [0]])

/-- A block can be drawn under these names: what is read is there, and its label fits in the
buffer. -/
structure Drawable (name : Value → List UInt8) (block : ℕ) : Prop where
  dumpable : Dumpable ir annotations block
  fits : FitsBuffer ((labelPushes ir annotations name block).map List.length)

/-- The label of a block. -/
def blockLabel (name : Value → List UInt8) (block : ℕ) : List UInt8 :=
  cString (labelPushes ir annotations name block).flatten

/-- The pushes for the node of a block and its edges. -/
def blockDotPushes (addr : ℕ → UInt64) (block : ℕ) (label : List UInt8) : List (List UInt8) :=
  nodePushes (getNodeId (addr block)) label ++
    ((blockSuccessors ir block).map fun succ => getNodeId (addr succ)).flatMap
      (edgePushes (getNodeId (addr block)))

/-- The pushes for the properties of the nodes and for blocks with these labels. -/
def functionPushes (addr : ℕ → UInt64) (labels : List (ℕ × List UInt8)) : List (List UInt8) :=
  nodePushes (stringBytes "node") (stringBytes "shape=rect") ++
    labels.flatMap fun x => blockDotPushes ir addr x.1 x.2

end Text

section Steps

variable {ir : Ir} {annotations : IrPrintAnnotations} {addr : ℕ → UInt64}

/-- What `_block_dump` has written. -/
theorem written_blockDumpd {dot : Bool} {block : ℕ} {names : ValueNames} {b : LoggedBuffer}
    {s : DumpText} (h : blockDumpd ir dot annotations block ⟨names, b⟩ = some s) :
    Dumpable ir annotations block ∧
      s.names = names.after (blockItems ir dot annotations block) ∧
      LoggedBuffer.Written b s.buffer (textPushes s.names.name
        (blockItems ir dot annotations block)) := by
  have hdumpable := dumpable_of_blockDumpd h
  obtain ⟨s', hs', hnames, hwritten⟩ :=
    prints_block ir dot annotations block hdumpable.doms hdumpable.set ⟨names, b⟩
  obtain rfl := Option.some.inj (h.symm.trans hs')
  exact ⟨hdumpable, hnames, hwritten⟩

theorem printRange_eq {bytes : List UInt8} (h : 0 ≤ toInt bytes.length) :
    printRange bytes = some ((printRange bytes).getD []) := by
  unfold printRange
  rw [if_pos h, Option.getD_some]

/-- **`function_dump`** dumps blocks. -/
theorem printBlock_dumps : DumpsEach (printBlock ir annotations)
    (blockItems ir false annotations) (Printable ir annotations) (blockLine ir annotations)
    fun s names done => s.names = names ∧ s.content.clear.d.Empty ∧ s.printed = done where
  returns := by
    rintro s names done b ⟨rfl, hempty, -⟩ hb
    obtain ⟨content, hcontent⟩ := (blockDumpd_iff ⟨s.names, s.content.clear⟩).mpr hb.dumpable
    obtain ⟨-, hnames, hwritten⟩ := written_blockDumpd hcontent
    have hgood : content.buffer.d.Good := by
      rw [hwritten.good_iff hempty, hnames]
      exact hb.fits
    have hbytes := hwritten.contents hempty hgood
    rw [flatten_textPushes, hnames] at hbytes
    have hprinted := printRange_eq hb.precision
    rw [← hbytes] at hprinted
    exact ⟨_, Option.bind_eq_some_iff.mpr ⟨content, hcontent, Option.bind_eq_some_iff.mpr
      ⟨(), (Option.guard_eq_some' _).mpr hgood, Option.bind_eq_some_iff.mpr ⟨_, hprinted, rfl⟩⟩⟩⟩
  next := by
    rintro s names done b s' ⟨rfl, hempty, rfl⟩ h
    obtain ⟨content, hcontent, h⟩ := Option.bind_eq_some_iff.mp h
    obtain ⟨_, hguard, h⟩ := Option.bind_eq_some_iff.mp h
    obtain ⟨printed, hprinted, h⟩ := Option.bind_eq_some_iff.mp h
    obtain rfl := Option.some.inj h
    obtain ⟨hdumpable, hnames, hwritten⟩ := written_blockDumpd hcontent
    have hgood := (Option.guard_eq_some' _).mp hguard
    have hbytes := hwritten.contents hempty hgood
    rw [flatten_textPushes, hnames] at hbytes
    rw [hbytes] at hprinted
    have hprecision : 0 ≤ toInt (renderText
        (s.names.after (blockItems ir false annotations b)).name
        (blockItems ir false annotations b)).length := by
      by_contra hneg
      rw [printRange, if_neg hneg] at hprinted
      cases hprinted
    refine ⟨⟨hdumpable, ?_, hprecision⟩, hnames, hwritten.clear hempty hgood, ?_⟩
    · rw [← hnames]
      exact (hwritten.good_iff hempty).mp hgood
    · show s.printed ++ [(b, printed ++ _)] = s.printed ++ [(b, blockLine ir annotations _ b)]
      rw [blockLine, hprinted]
      rfl
  stable names more b := by
    have hpushes := names.pushes_stable (blockItems ir false annotations b) more
    have hrender := names.render_stable (blockItems ir false annotations b) more
    constructor
    · rintro ⟨hdumpable, hfits, hprecision⟩
      rw [hpushes] at hfits
      rw [hrender] at hprecision
      exact ⟨hdumpable, hfits, hprecision⟩
    · rintro ⟨hdumpable, hfits, hprecision⟩
      rw [← hpushes] at hfits
      rw [← hrender] at hprecision
      exact ⟨hdumpable, hfits, hprecision⟩
  stableText names more b := by
    unfold blockLine
    rw [names.render_stable]

/-- What `function_dumpDot` has written for a block. -/
theorem written_label {block : ℕ} {names : ValueNames} {b : LoggedBuffer} {s : DumpText}
    (h : blockDumpd ir true annotations block ⟨names, b.pushStr (stringBytes "label=\"")⟩ =
      some s) :
    LoggedBuffer.Written b ((s.buffer.pushChar (byte '"')).pushChar 0)
      (labelPushes ir annotations s.names.name block) :=
  (b.written_pushData _).trans ((written_blockDumpd h).2.2.trans
    ((s.buffer.written_pushData [byte '"']).trans (LoggedBuffer.written_pushData _ [0])))

/-- A block is added to the graph. -/
theorem DotGraph.Holds.block {graph : DotGraph} {labels : List (ℕ × List UInt8)}
    (h : graph.Holds "function_graph" (functionPushes ir addr labels)) (block : ℕ)
    (label : List UInt8) :
    (((blockSuccessors ir block).map fun succ => getNodeId (addr succ)).foldl
      (fun graph childId => graphAddEdge graph (getNodeId (addr block)) childId)
      (graphSetNodeProps graph (getNodeId (addr block)) label)).Holds "function_graph"
        (functionPushes ir addr (labels ++ [(block, label)])) := by
  have hnode := (h.setNodeProps (getNodeId (addr block)) label).addEdges (getNodeId (addr block))
    ((blockSuccessors ir block).map fun succ => getNodeId (addr succ))
  have hpushes : functionPushes ir addr (labels ++ [(block, label)]) =
      functionPushes ir addr labels ++ nodePushes (getNodeId (addr block)) label ++
        ((blockSuccessors ir block).map fun succ => getNodeId (addr succ)).flatMap
          (edgePushes (getNodeId (addr block))) := by
    unfold functionPushes blockDotPushes
    rw [List.flatMap_append, List.flatMap_singleton, List.append_assoc, List.append_assoc]
  rw [hpushes]
  exact hnode

/-- **`function_dumpDot`** dumps blocks. -/
theorem dotBlock_dumps : DumpsEach (dotBlock ir annotations addr)
    (blockItems ir true annotations) (Drawable ir annotations) (blockLabel ir annotations)
    fun s names done => s.names = names ∧ s.content.clear.d.Empty ∧
      s.items = done.flatMap (fun x => dotItems ir x.1) ∧
      s.graph.Holds "function_graph" (functionPushes ir addr done) where
  returns := by
    rintro s names done b ⟨rfl, hempty, -, -⟩ hb
    obtain ⟨content, hcontent⟩ := (blockDumpd_iff
      ⟨s.names, s.content.clear.pushStr (stringBytes "label=\"")⟩).mpr hb.dumpable
    obtain ⟨-, hnames, -⟩ := written_blockDumpd hcontent
    have hgood : ((content.buffer.pushChar (byte '"')).pushChar 0).d.Good := by
      rw [(written_label hcontent).good_iff hempty, hnames]
      exact hb.fits
    exact ⟨_, Option.bind_eq_some_iff.mpr ⟨content, hcontent, Option.bind_eq_some_iff.mpr
      ⟨(), (Option.guard_eq_some' _).mpr hgood, rfl⟩⟩⟩
  next := by
    rintro s names done b s' ⟨rfl, hempty, hitems, hholds⟩ h
    obtain ⟨content, hcontent, h⟩ := Option.bind_eq_some_iff.mp h
    obtain ⟨_, hguard, h⟩ := Option.bind_eq_some_iff.mp h
    obtain rfl := Option.some.inj h
    obtain ⟨hdumpable, hnames, -⟩ := written_blockDumpd hcontent
    have hwritten := written_label hcontent
    have hgood := (Option.guard_eq_some' _).mp hguard
    have hlabel := hwritten.contents hempty hgood
    refine ⟨⟨hdumpable, ?_⟩, hnames, hwritten.clear hempty hgood, ?_, ?_⟩
    · rw [← hnames]
      exact (hwritten.good_iff hempty).mp hgood
    · show s.items ++ dotItems ir b = _
      rw [hitems, List.flatMap_append, List.flatMap_singleton]
    · have hsame : blockLabel ir annotations
          (s.names.after (blockItems ir true annotations b)).name b =
            cString ((content.buffer.pushChar (byte '"')).pushChar 0).d.contents := by
        rw [hlabel, hnames]
        rfl
      rw [hsame]
      exact hholds.block b _
  stable names more b := by
    have hpushes := names.pushes_stable (blockItems ir true annotations b) more
    have hlabel : labelPushes ir annotations
        ((names.after (blockItems ir true annotations b)).after more).name b =
          labelPushes ir annotations (names.after (blockItems ir true annotations b)).name b := by
      unfold labelPushes
      rw [hpushes]
    constructor
    · rintro ⟨hdumpable, hfits⟩
      rw [hlabel] at hfits
      exact ⟨hdumpable, hfits⟩
    · rintro ⟨hdumpable, hfits⟩
      rw [← hlabel] at hfits
      exact ⟨hdumpable, hfits⟩
  stableText names more b := by
    unfold blockLabel labelPushes
    rw [names.pushes_stable]

end Steps

/-! ## The functions on the blocks in their order -/

section Order

variable (ir : Ir) (annotations : IrPrintAnnotations) (addr : ℕ → UInt64) (names : ValueNames)
  (order : List ℕ)

/-- The names after a dump. -/
def dumpNames (dot : Bool) : ValueNames :=
  names.after (order.flatMap (blockItems ir dot annotations))

/-- A dump only gives names of at most eleven bytes. -/
theorem length_dumpNames (dot : Bool) (value : Value) :
    ((dumpNames ir annotations names order dot).name value).length ≤
      max 11 (names.name value).length :=
  names.length_name_after _ value

/-- The texts that `function_dump` prints. -/
def dumpLines : List (ℕ × List UInt8) :=
  dumpTexts (blockItems ir false annotations) (blockLine ir annotations) names order

/-- The labels of the graph of `function_dumpDot`. -/
def dotLabels : List (ℕ × List UInt8) :=
  dumpTexts (blockItems ir true annotations) (blockLabel ir annotations) names order

variable {ir annotations addr names order} {fuel entry : ℕ}
  (horder : LevelSearch.search (blockSuccessors ir) fuel [entry] [] = some order)
include horder

/-- **`function_dump`** ends if the levels fit and every block can be printed. -/
theorem functionDump_iff :
    ((∃ s, functionDump ir annotations fuel entry names = some s) ↔
      LevelSearch.LevelsWithin (blockSuccessors ir) entry 250 ∧
        ∀ b ∈ order, Printable ir annotations (dumpNames ir annotations names order false).name b) ∧
    ∀ s, functionDump ir annotations fuel entry names = some s →
      s.names = dumpNames ir annotations names order false ∧
        s.printed = dumpLines ir annotations names order := by
  obtain ⟨hiff, hresult⟩ := (@printBlock_dumps ir annotations).foldlM_iff order
    ⟨names, ⟨dbufferInitSize 1000, []⟩, []⟩ names [] ⟨rfl, dbufferInit_empty, rfl⟩
  unfold functionDump
  constructor
  · simp only [dumpLoop_order_iff horder, exists_and_left]
    rw [← hiff]
    rfl
  · intro s hs
    obtain ⟨hnames, -, hprinted⟩ := hresult s ((dumpLoop_order_iff horder).mp hs).2
    exact ⟨hnames, hprinted⟩

/-- **`function_dumpDot`** ends if the levels fit, every block can be drawn, and the text of the
graph fits. -/
theorem functionDumpDot_iff :
    ((∃ t text, functionDumpDot ir annotations addr fuel entry names = some (t, text)) ↔
      LevelSearch.LevelsWithin (blockSuccessors ir) entry 250 ∧
        (∀ b ∈ order, Drawable ir annotations (dumpNames ir annotations names order true).name b) ∧
        GraphFits "function_graph"
          (functionPushes ir addr (dotLabels ir annotations names order))) ∧
    ∀ t text, functionDumpDot ir annotations addr fuel entry names = some (t, text) →
      t.items = order.flatMap (dotItems ir) ∧
        text = cString (headPushes "function_graph" ++
          functionPushes ir addr (dotLabels ir annotations names order) ++ tailPushes).flatten := by
  have hstart : (dotStart names).graph.Holds "function_graph" (functionPushes ir addr []) := by
    rw [functionPushes, List.flatMap_nil, List.append_nil]
    exact (graphInit_holds "function_graph").setNodeProps (stringBytes "node")
      (stringBytes "shape=rect")
  obtain ⟨hiff, hresult⟩ := (@dotBlock_dumps ir annotations addr).foldlM_iff order
    (dotStart names) names [] ⟨rfl, dbufferInit_empty, rfl, hstart⟩
  have hholds : ∀ {t}, order.foldlM (dotBlock ir annotations addr) (dotStart names) = some t →
      t.items = order.flatMap (dotItems ir) ∧ t.graph.Holds "function_graph"
        (functionPushes ir addr (dotLabels ir annotations names order)) := by
    intro t ht
    obtain ⟨-, -, hitems, hgraph⟩ := hresult t ht
    refine ⟨hitems.trans ?_, hgraph⟩
    rw [List.nil_append, dumpTexts, List.flatMap_map]
  constructor
  · constructor
    · rintro ⟨t, text, h⟩
      obtain ⟨t, hloop, h⟩ := Option.bind_eq_some_iff.mp h
      obtain ⟨result, hfinal, -⟩ := Option.bind_eq_some_iff.mp h
      obtain ⟨hlevels, hfold⟩ := (dumpLoop_order_iff horder).mp hloop
      exact ⟨hlevels, hiff.mpr ⟨t, hfold⟩, ((graphFinalize_iff (hholds hfold).2).mp hfinal).1⟩
    · rintro ⟨hlevels, hblocks, hgraph⟩
      obtain ⟨t, hfold⟩ := hiff.mp hblocks
      exact ⟨t, _, Option.bind_eq_some_iff.mpr ⟨t, (dumpLoop_order_iff horder).mpr ⟨hlevels, hfold⟩,
        Option.bind_eq_some_iff.mpr
          ⟨_, (graphFinalize_iff (hholds hfold).2).mpr ⟨hgraph, rfl⟩, rfl⟩⟩⟩
  · intro t text h
    obtain ⟨t', hloop, h⟩ := Option.bind_eq_some_iff.mp h
    obtain ⟨result, hfinal, h⟩ := Option.bind_eq_some_iff.mp h
    cases h
    obtain ⟨-, hfold⟩ := (dumpLoop_order_iff horder).mp hloop
    exact ⟨(hholds hfold).1, ((graphFinalize_iff (hholds hfold).2).mp hfinal).2⟩

end Order

/-- A function can be dumped: at any distance from the entry the blocks have at most 250
successors together, and every block and the whole graph fit in their buffers, with the names
that the values get in the order of the blocks. -/
structure DumpFits (ir : Ir) (annotations : IrPrintAnnotations) (addr : ℕ → UInt64)
    (names : ValueNames) (entry : ℕ) (order : List ℕ) : Prop where
  levels : LevelSearch.LevelsWithin (blockSuccessors ir) entry 250
  blocks : ∀ b ∈ order,
    Printable ir annotations (dumpNames ir annotations names order false).name b
  labels : ∀ b ∈ order,
    Drawable ir annotations (dumpNames ir annotations names order true).name b
  graph : GraphFits "function_graph"
    (functionPushes ir addr (dotLabels ir annotations names order))

/-- The reachable blocks, once each, and no others. -/
structure VisitsOnce (ir : Ir) (entry : ℕ) (visited : List ℕ) : Prop where
  nodup : visited.Nodup
  mem : ∀ b, b ∈ visited ↔ Reachable (cfgEdge ir) entry b

/-- **Dumping visits every block once**: on a function of which finitely many blocks can be
reached, both functions end, `function_dump` prints each of these once and no other, and
`function_dumpDot` adds a node for each of these once and for no other, with one edge for each
successor item, exactly if the function can be dumped. -/
theorem functionDump_visits_iff (ir : Ir) (entry : ℕ) (annotations : IrPrintAnnotations)
    (addr : ℕ → UInt64) (names : ValueNames) (blocks : List ℕ)
    (hblocks : ∀ b, Reachable (cfgEdge ir) entry b → b ∈ blocks) :
    ∃ order, LevelSearch.IsOrder (blockSuccessors ir) entry order ∧
      ((∃ fuel s t text, functionDump ir annotations fuel entry names = some s ∧
          functionDumpDot ir annotations addr fuel entry names = some (t, text) ∧
          VisitsOnce ir entry (s.printed.map Prod.fst) ∧
          ∃ visited, VisitsOnce ir entry visited ∧ t.items = visited.flatMap (dotItems ir)) ↔
        DumpFits ir annotations addr names entry order) := by
  obtain ⟨order, hnodup, hmem, hsearch⟩ := LevelSearch.search_visits entry blocks hblocks
  have hfuel := hsearch (blocks.length + 2) (Nat.le_refl _)
  refine ⟨order, ⟨_, hfuel⟩, ?_⟩
  constructor
  · rintro ⟨fuel, s, t, text, hs, ht, -, -⟩
    obtain ⟨order', horder'⟩ := exists_search_of_dumpLoop hs
    obtain rfl := LevelSearch.IsOrder.eq ⟨_, hfuel⟩ ⟨_, horder'⟩
    obtain ⟨hlevels, hprint⟩ := (functionDump_iff horder').1.mp ⟨s, hs⟩
    obtain ⟨-, hdraw, hgraph⟩ := (functionDumpDot_iff horder').1.mp ⟨t, text, ht⟩
    exact ⟨hlevels, hprint, hdraw, hgraph⟩
  · intro h
    obtain ⟨s, hs⟩ := (functionDump_iff hfuel).1.mpr ⟨h.levels, h.blocks⟩
    obtain ⟨t, text, ht⟩ := (functionDumpDot_iff hfuel).1.mpr ⟨h.levels, h.labels, h.graph⟩
    obtain ⟨-, hprinted⟩ := (functionDump_iff hfuel).2 s hs
    obtain ⟨hitems, -⟩ := (functionDumpDot_iff hfuel).2 t text ht
    refine ⟨_, s, t, text, hs, ht, ?_, order, ⟨hnodup, hmem⟩, hitems⟩
    have hvisited : s.printed.map Prod.fst = order := by
      rw [hprinted, dumpLines, dumpTexts, List.map_map]
      exact List.map_id' order
    rw [hvisited]
    exact ⟨hnodup, hmem⟩

/-- The blocks of two nested conditionals, where `3` and `4` have two predecessors. -/
theorem functionDump_visits_iff_nestedJoins :
    ∃ order, LevelSearch.IsOrder (blockSuccessors nestedJoins) 0 order ∧
      ((∃ fuel s t text,
          functionDump nestedJoins ⟨none, none⟩ fuel 0 ⟨fun _ => [], 0⟩ = some s ∧
          functionDumpDot nestedJoins ⟨none, none⟩ (fun b => UInt64.ofNat (64 * b)) fuel 0
            ⟨fun _ => [], 0⟩ = some (t, text) ∧
          VisitsOnce nestedJoins 0 (s.printed.map Prod.fst) ∧ ∃ visited,
            VisitsOnce nestedJoins 0 visited ∧
              t.items = visited.flatMap (dotItems nestedJoins)) ↔
        DumpFits nestedJoins ⟨none, none⟩ (fun b => UInt64.ofNat (64 * b)) ⟨fun _ => [], 0⟩ 0
          order) :=
  functionDump_visits_iff nestedJoins 0 ⟨none, none⟩ _ ⟨fun _ => [], 0⟩ (List.range 5) fun _ hb =>
    List.mem_range.mpr (reachable_nestedJoins.mp hb)

/-- A function of one block, with a hundred additions. -/
def manyAdditions : Ir :=
  irOfLists
    (List.replicate 100 ⟨.binary .add, .int64, [some (.const 0), some (.const 0)], 0⟩ ++
      [⟨.ret, .void, [], 0⟩])
    [List.range 101] [0]

theorem insts_manyAdditions {i : ℕ} (hi : i < 100) : manyAdditions.insts i =
    ⟨.binary .add, .int64, [some (.const 0), some (.const 0)], 0⟩ := by
  show List.getD (List.replicate 100 _ ++ _) i _ = _
  rw [List.getD_append _ _ _ _ (by rwa [List.length_replicate]), List.getD_replicate _ hi]

/-- However its result is named, an addition takes more than 20 bytes. -/
theorem length_addition (name : Value → List UInt8) {i : ℕ} (hi : i < 100) :
    21 ≤ (renderText name (instItems manyAdditions false i)).length := by
  have hitems : instItems manyAdditions false i =
      [.string "int64", .string " %", .name (.inst i), .string " = ", .string "binary",
        .string " ", .string "add", .string " ", .number 0, .string ", ", .number 0,
        newLineItem false] := by
    unfold instItems resultItems
    rw [insts_manyAdditions hi]
    rfl
  have hlength : ∀ text : String, (TextItem.render name (.string text)).length =
      (stringBytes text).length := fun _ => rfl
  have hstrings : (stringBytes "int64").length + (stringBytes " %").length +
      (stringBytes " = ").length + (stringBytes "binary").length + (stringBytes " ").length +
      (stringBytes "add").length + (stringBytes ", ").length = 22 := by decide
  unfold renderText
  rw [hitems, List.length_flatMap]
  simp only [List.map_cons, List.sum_cons, List.map_nil, List.sum_nil, hlength]
  omega

theorem length_manyAdditions (name : Value → List UInt8) :
    2100 ≤ (renderText name (blockItems manyAdditions false ⟨none, none⟩ 0)).length := by
  have hblock : blockItems manyAdditions false ⟨none, none⟩ 0 =
      [.string "!", .name (.block 0), .string ":", newLineItem false] ++
        (List.range 100).flatMap (instItems manyAdditions false) ++
          instItems manyAdditions false 100 := by
    have hinsts : manyAdditions.blocks 0 = List.range 100 ++ [100] := List.range_succ
    unfold blockItems
    rw [hinsts, List.flatMap_append, List.flatMap_singleton, ← List.append_assoc]
    rfl
  have hsum : 2100 ≤
      (renderText name ((List.range 100).flatMap (instItems manyAdditions false))).length := by
    unfold renderText
    rw [List.flatMap_assoc, List.length_flatMap]
    have hle : ∀ n ∈ (List.range 100).map fun i =>
        (renderText name (instItems manyAdditions false i)).length, 21 ≤ n := by
      intro n hn
      obtain ⟨i, hi, rfl⟩ := List.mem_map.mp hn
      exact length_addition name (List.mem_range.mp hi)
    have hsum := List.card_nsmul_le_sum _ _ hle
    rw [List.length_map, List.length_range] at hsum
    exact hsum
  rw [hblock]
  unfold renderText at hsum ⊢
  rw [List.flatMap_append, List.flatMap_append, List.length_append, List.length_append]
  omega

/-- The text of the block does not fit, however its values are named. -/
theorem manyAdditions_not_fits {name : Value → List UInt8}
    (hname : ∀ value, (name value).length ≤ 500) : ¬ FitsBuffer
      ((textPushes name (blockItems manyAdditions false ⟨none, none⟩ 0)).map List.length) := by
  rw [fitsBuffer_text_iff (short_block _ false _ 0) hname]
  exact fun h => absurd ((length_manyAdditions name).trans h) (by decide)

theorem blockSuccessors_manyAdditions : blockSuccessors manyAdditions 0 = [] := by
  have hlast : blockLastInstruction manyAdditions 0 = some 100 := by
    show (List.range 101).getLast? = some 100
    rw [List.range_succ, List.getLast?_concat]
  have hret : manyAdditions.insts 100 = ⟨.ret, .void, [], 0⟩ := by
    show List.getD (List.replicate 100 (Instruction.mk (.binary .add) .int64
      [some (.const 0), some (.const 0)] 0) ++ [Instruction.mk .ret .void [] 0]) 100
      (Instruction.mk .ret .void [] 0) = _
    rw [List.getD_append_right _ _ _ _ (by rw [List.length_replicate]), List.length_replicate]
    rfl
  unfold blockSuccessors
  rw [hlast]
  dsimp only
  rw [hret]
  rfl

/-- **A long block**: the only block of this function can be reached, but its text does not fit
in the buffer, so that the function is not dumped. -/
theorem functionDump_not_visits :
    (∀ b, Reachable (cfgEdge manyAdditions) 0 b → b ∈ [0]) ∧
      ¬ ∃ fuel s, functionDump manyAdditions ⟨none, none⟩ fuel 0 ⟨fun _ => [], 0⟩ = some s := by
  have hsearch : LevelSearch.search (blockSuccessors manyAdditions) 2 [0] [] = some [0] := by
    rw [LevelSearch.search, if_neg (List.cons_ne_nil _ _)]
    show LevelSearch.search _ 1 ([] ++ blockSuccessors manyAdditions 0) [0] = _
    rw [blockSuccessors_manyAdditions]
    rfl
  constructor
  · rintro b ⟨p, hp⟩
    induction hp with
    | root => exact List.mem_singleton_self 0
    | step _ hedge ih =>
        rw [List.mem_singleton.mp ih] at hedge
        unfold cfgEdge at hedge
        rw [blockSuccessors_manyAdditions] at hedge
        exact absurd hedge List.not_mem_nil
  · rintro ⟨fuel, s, hs⟩
    obtain ⟨order, horder⟩ := exists_search_of_dumpLoop hs
    obtain rfl := LevelSearch.IsOrder.eq ⟨_, hsearch⟩ ⟨_, horder⟩
    obtain ⟨-, hprint⟩ := (functionDump_iff horder).1.mp ⟨s, hs⟩
    have hname : ∀ value, ((dumpNames manyAdditions ⟨none, none⟩ ⟨fun _ => [], 0⟩
        [0] false).name value).length ≤ 500 := fun value =>
      (length_dumpNames _ _ _ _ _ value).trans (show max 11 0 ≤ 500 by decide)
    exact manyAdditions_not_fits hname (hprint 0 (List.mem_singleton_self 0)).fits
