import TripleRules.Network

/-!
# Diagrams

A network is drawn as a graph in the DOT language. The vertex of a node is named n and its handle, that of an alpha memory a
and its handle. Labels are quoted strings, in which a backslash and a quote are written with a backslash before them.
-/

namespace TripleRules

/-- A character of a label. -/
def escapeLabelChar (c : Char) : List Char :=
  match c with
  | '\\' => ['\\', '\\']
  | '"' => ['\\', '"']
  | c => [c]

/-- The characters of a label, as they stand between the quotes. -/
def escapeLabel (s : String) : String := String.ofList (s.toList.flatMap escapeLabelChar)

/-- Escaping replaces backslashes first and quotes after that. -/
theorem toList_escapeLabel (s : String) : (escapeLabel s).toList =
    (s.toList.flatMap fun c => if c = '\\' then ['\\', '\\'] else [c]).flatMap fun c => if c = '"' then ['\\', '"'] else [c] := by
  rw [escapeLabel, String.toList_ofList, List.flatMap_assoc]
  congr 1
  funext c
  unfold escapeLabelChar
  split
  · rfl
  · rfl
  · rename_i hback hquote
    rw [if_neg hback, List.flatMap_singleton, if_neg hquote]

theorem escapeLabel_append (s t : String) : escapeLabel (s ++ t) = escapeLabel s ++ escapeLabel t := by
  simp [escapeLabel, String.ofList_append]

/-- The label of a node, without its handle. -/
def Node.label : Node → String
  | top _ => "top"
  | join j => "join " ++ j.condition.text
  | memory _ => "β"
  | production p => "P " ++ p.rule

/-- The fill colour of a node. -/
def Node.color : Node → String
  | top _ => "lightgray"
  | join _ => "lightblue"
  | memory _ => "lightgreen"
  | production _ => "orange"

namespace Diagram

/-- The line of an alpha memory. -/
def alphaLine (m : AlphaMemory) : String :=
  "  a" ++ toString m.id ++ " [label=\"α " ++ escapeLabel m.key ++
    "\", shape=ellipse, fillcolor=lightyellow, style=filled];\n"

/-- The line of a node. -/
def nodeLine (x : Node) (id : NodeId) : String :=
  "  n" ++ toString id ++ " [label=\"" ++ toString id ++ ": " ++ escapeLabel x.label ++ "\", fillcolor=" ++ x.color ++
    ", style=\"rounded,filled\"];\n"

/-- The lines of the edges from a node to the nodes below it. -/
def childLines (x : Node) (id : NodeId) : String :=
  String.join (x.children.map fun child => "  n" ++ toString id ++ " -> n" ++ toString child ++ ";\n")

/-- The lines of the edges from an alpha memory to the joins that read it. -/
def readerLines (m : AlphaMemory) : String :=
  String.join (m.successors.map fun join => "  a" ++ toString m.id ++ " -> n" ++ toString join ++ " [style=dashed];\n")

end Diagram

/-- The drawing of a network: the vertices of the alpha memories and of the nodes, then the edges between nodes, then the
dashed edges from alpha memories to joins. -/
def Network.diagram (n : Network) : String :=
  let alphas := n.alpha.memories.toList
  let nodes := n.nodes.toList.zipIdx
  "digraph ReteNetwork \x7b\n  rankdir=TB;\n  node [shape=box, style=rounded];\n" ++
    String.join (alphas.map Diagram.alphaLine) ++
    String.join (nodes.map fun (x, id) => Diagram.nodeLine x id) ++
    String.join (nodes.map fun (x, id) => Diagram.childLines x id) ++
    String.join (alphas.map Diagram.readerLines) ++ "\x7d\n"

end TripleRules
