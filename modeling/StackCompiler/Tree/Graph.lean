import StackCompiler.Tree.Reach

/-!
# Graph descriptions

A tree as the description of a directed graph, with one record for each node that is reached from
the root and one edge for each of its links.
-/

namespace StackCompiler

namespace Tree

/-- What a node's record says. -/
def graphLabel (t : Tree) : NodeKind → String
  | .hole => "none"
  | .number value => value.text
  | .variable index =>
    let name := (t.vars.resolve? index).getD "?"
    toString (NodeKind.variable index).tag ++ " " ++ toString index ++ " | " ++ name
  | .function index =>
    let name := (t.funcs.resolve? index).getD "?"
    toString (NodeKind.function index).tag ++ " " ++ toString index ++ " | " ++ name
  | kind => toString kind.tag ++ " " ++ kind.payload.text ++ " | " ++ kind.text

/-- A text with a backslash before each character that has a meaning in a record. -/
def graphEscaped (text : String) : String :=
  String.ofList (text.toList.flatMap fun c =>
    if c ∈ ['"', '<', '>', '\x7b', '\x7d', '\\'] then ['\\', c] else [c])

/-- The lines of a node: its record and its edges. -/
def graphLines (t : Tree) (id : NodeId) (node : Node) : List String :=
  let color := if node.kind = .hole then "#FF0000" else "#0000FF"
  let label := graphEscaped (t.graphLabel node.kind)
  let edge (child : NodeId) : String :=
    "        " ++ toString id ++ " -> " ++ toString child
      ++ " [color = \"#FF0000\", weight = 10];"
  ("        " ++ toString id ++ "  [shape = \"Mrecord\", fillcolor = \"#FFFFFF\", label = \""
      ++ label ++ "\", color = \"" ++ color ++ "\"];")
    :: node.children.map edge

/-- The description of a graph with the given lines for its nodes. -/
def graphText (lines : List String) : String :=
  let head :=
    ["digraph G",
     "\x7b",
     "    rankdir = UD;",
     "    bgcolor = \"#ff8080\";",
     "    node  [style = filled, color = white];",
     "    edge  [color = \"darkgreen\", fontcolor = \"blue\", fontsize = 15];",
     "",
     "    subgraph cluster0",
     "    \x7b",
     "        bgcolor = \"#ffAAAA\";",
     "        style   = filled;",
     "        label   = \"syntax tree\";",
     ""]
  String.join ((head ++ lines ++ ["    \x7d", "\x7d"]).map (· ++ "\n"))

/-- The description of a tree as a graph. -/
def graph (t : Tree) : String :=
  graphText (t.reached.flatMap fun (id, node) => t.graphLines id node)

end Tree

end StackCompiler
