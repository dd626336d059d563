/-
# Graphs in the dot language (`dot_builder.c`)

A graph is written to a buffer of `dbuffer_init` as it is built: first its head, then nodes with
their properties and edges, and last the closing brace.  Nothing is taken off the buffer, so the
whole text has to fit in it.

* `graphFinalize_iff` : a graph is finished within its buffer exactly if its text fits.
-/
import MCompiler.Formatting

/-! ## The operations -/

/-- `struct Graph`. -/
structure DotGraph where
  isDirected : Bool
  dbuffer : LoggedBuffer

/-- `dbuffer_pushStr` on the buffer of the graph. -/
def DotGraph.pushStr (graph : DotGraph) (str : List UInt8) : DotGraph :=
  { graph with dbuffer := graph.dbuffer.pushStr str }

/-- `graph_init`. -/
def graphInit (name : String) (isDirected : Bool) : DotGraph :=
  let graph : DotGraph := ⟨isDirected, ⟨dbufferInitSize 1000, []⟩⟩
  let graph := graph.pushStr (stringBytes (if isDirected then "digraph " else "graph "))
  let graph := graph.pushStr (stringBytes name)
  let graph := graph.pushStr (stringBytes " \x7b")
  graph.pushStr (stringBytes "\n")

/-- `graph_addEdgeVProp`. -/
def graphAddEdgeVProp (graph : DotGraph) (aName bName : List UInt8)
    (edgeProps : Option (List UInt8)) : DotGraph :=
  let graph := graph.pushStr (stringBytes "\t")
  let graph := graph.pushStr aName
  let graph := graph.pushStr (stringBytes " -> ")
  let graph := graph.pushStr bName
  let graph :=
    match edgeProps with
    | none => graph
    | some edgeProps =>
        ((graph.pushStr (stringBytes "[")).pushStr edgeProps).pushStr (stringBytes "]")
  let graph := graph.pushStr (stringBytes ";")
  graph.pushStr (stringBytes "\n")

/-- `graph_addEdge`. -/
def graphAddEdge (graph : DotGraph) (aName bName : List UInt8) : DotGraph :=
  graphAddEdgeVProp graph aName bName none

/-- `graph_setNodeProps`. -/
def graphSetNodeProps (graph : DotGraph) (nodeName props : List UInt8) : DotGraph :=
  let graph := graph.pushStr nodeName
  let graph := graph.pushStr (stringBytes "[")
  let graph := graph.pushStr props
  let graph := graph.pushStr (stringBytes "]")
  graph.pushStr (stringBytes "\n")

/-- The string in a buffer, up to its first null byte. -/
def cString (bytes : List UInt8) : List UInt8 := bytes.takeWhile (· ≠ 0)

/-- `graph_finalize`: the string that is returned, unless something has been stored past the
end of the buffer. -/
def graphFinalize (graph : DotGraph) : Option (List UInt8) := do
  let graph := graph.pushStr (stringBytes "\x7d")
  let dbuffer := graph.dbuffer.pushChar 0
  guard dbuffer.d.Good
  return cString dbuffer.d.contents

/-- `MAX_NODE_ID`. -/
def maxNodeId : ℕ := 16

/-- `getNodeId`: `%x` prints the low 32 bits of the address. -/
def getNodeId (node : UInt64) : List UInt8 :=
  (stringBytes "node_" ++ (Nat.toDigits 16 (node.toNat % 2 ^ 32)).map byte).take (maxNodeId - 1)

theorem length_getNodeId (node : UInt64) : (getNodeId node).length ≤ 15 := by
  unfold getNodeId
  rw [List.length_take]
  exact Nat.min_le_left _ _

/-! ## What they write -/

/-- The pushes of `graph_init`. -/
def headPushes (name : String) : List (List UInt8) :=
  [stringBytes "digraph ", stringBytes name, stringBytes " \x7b", stringBytes "\n"]

/-- The pushes of `graph_setNodeProps`. -/
def nodePushes (nodeName props : List UInt8) : List (List UInt8) :=
  [nodeName, stringBytes "[", props, stringBytes "]", stringBytes "\n"]

/-- The pushes of `graph_addEdge`. -/
def edgePushes (aName bName : List UInt8) : List (List UInt8) :=
  [stringBytes "\t", aName, stringBytes " -> ", bName, stringBytes ";", stringBytes "\n"]

/-- The pushes of `graph_finalize`. -/
def tailPushes : List (List UInt8) := [stringBytes "\x7d", [0]]

/-- The text of a graph with these pushes between its head and its end fits in the buffer. -/
def GraphFits (name : String) (pushes : List (List UInt8)) : Prop :=
  FitsBuffer ((headPushes name ++ pushes ++ tailPushes).map List.length)

instance (name : String) : DecidablePred (GraphFits name) := fun _ =>
  inferInstanceAs (Decidable (FitsBuffer _))

/-- The buffer of `graph`, to which these pushes have been written since `graph_init`. -/
def DotGraph.Holds (name : String) (graph : DotGraph) (pushes : List (List UInt8)) : Prop :=
  LoggedBuffer.Written ⟨dbufferInitSize 1000, []⟩ graph.dbuffer (headPushes name ++ pushes)

section Holds

variable {name : String} {graph : DotGraph} {pushes : List (List UInt8)}

/-- Strings that are pushed one after the other. -/
theorem DotGraph.written_pushStrs (strs : List (List UInt8)) : ∀ graph : DotGraph,
    LoggedBuffer.Written graph.dbuffer (strs.foldl DotGraph.pushStr graph).dbuffer strs := by
  induction strs with
  | nil => exact fun graph => .refl _
  | cons str strs ih =>
      exact fun graph => (graph.dbuffer.written_pushData str).trans (ih (graph.pushStr str))

theorem graphInit_holds (name : String) : (graphInit name true).Holds name [] := by
  unfold DotGraph.Holds
  rw [List.append_nil]
  exact DotGraph.written_pushStrs (headPushes name) ⟨true, ⟨dbufferInitSize 1000, []⟩⟩

theorem DotGraph.Holds.pushStrs (h : graph.Holds name pushes) (strs : List (List UInt8)) :
    (strs.foldl DotGraph.pushStr graph).Holds name (pushes ++ strs) := by
  unfold DotGraph.Holds
  rw [← List.append_assoc]
  exact h.trans (DotGraph.written_pushStrs strs graph)

theorem DotGraph.Holds.setNodeProps (h : graph.Holds name pushes) (nodeName props : List UInt8) :
    (graphSetNodeProps graph nodeName props).Holds name (pushes ++ nodePushes nodeName props) :=
  h.pushStrs (nodePushes nodeName props)

theorem DotGraph.Holds.addEdge (h : graph.Holds name pushes) (aName bName : List UInt8) :
    (graphAddEdge graph aName bName).Holds name (pushes ++ edgePushes aName bName) :=
  h.pushStrs (edgePushes aName bName)

/-- The edges of a loop over the nodes that a node leads to. -/
theorem DotGraph.Holds.addEdges (aName : List UInt8) (bNames : List (List UInt8)) :
    ∀ {graph : DotGraph} {pushes : List (List UInt8)}, graph.Holds name pushes →
      (bNames.foldl (fun graph bName => graphAddEdge graph aName bName) graph).Holds name
        (pushes ++ bNames.flatMap (edgePushes aName)) := by
  induction bNames with
  | nil =>
      intro graph pushes h
      rw [List.flatMap_nil, List.append_nil]
      exact h
  | cons bName bNames ih =>
      intro graph pushes h
      rw [List.foldl_cons, List.flatMap_cons, ← List.append_assoc]
      exact ih (h.addEdge aName bName)

/-- **A graph is finished** exactly if its text fits, and then it is the string returned. -/
theorem graphFinalize_iff (h : graph.Holds name pushes) {text : List UInt8} :
    graphFinalize graph = some text ↔ GraphFits name pushes ∧
      text = cString (headPushes name ++ pushes ++ tailPushes).flatten := by
  have hend : LoggedBuffer.Written ⟨dbufferInitSize 1000, []⟩
      ((graph.pushStr (stringBytes "\x7d")).dbuffer.pushChar 0)
      (headPushes name ++ pushes ++ tailPushes) :=
    h.trans ((graph.dbuffer.written_pushData (stringBytes "\x7d")).trans
      (LoggedBuffer.written_pushData _ [0]))
  have hgood : ((graph.pushStr (stringBytes "\x7d")).dbuffer.pushChar 0).d.Good ↔
      GraphFits name pushes := hend.good_iff dbufferInit_empty
  have hcontents := hend.contents dbufferInit_empty
  constructor
  · intro htext
    obtain ⟨_, hguard, hreturn⟩ := Option.bind_eq_some_iff.mp htext
    have hstored := (Option.guard_eq_some' _).mp hguard
    rw [← hcontents hstored]
    exact ⟨hgood.mp hstored, (Option.some.inj hreturn).symm⟩
  · rintro ⟨hfits, rfl⟩
    rw [← hcontents (hgood.mpr hfits)]
    exact Option.bind_eq_some_iff.mpr
      ⟨(), (Option.guard_eq_some' _).mpr (hgood.mpr hfits), rfl⟩

end Holds
