import TripleRules.Network

/-!
# Legends

A legend lists the nodes of a network and its alpha memories, one to a line, under the names that the diagram gives them. Names
and terms stand as they are.
-/

namespace TripleRules

/-- Texts between brackets. -/
def bracketed (texts : List String) : String := "[" ++ ", ".intercalate texts ++ "]"

/-- What a legend says about a node after its kind. -/
def Node.remark : Node → String
  | top _ => ""
  | join j =>
    " " ++ j.condition.text ++ " via a" ++ toString j.alpha ++
      if j.tests.isEmpty then "" else " tests " ++ bracketed (j.tests.map JoinTest.text)
  | memory m => " tokens=" ++ toString m.tokens.size
  | production p =>
    " rule=" ++ p.rule ++ " conditions=" ++ toString p.conditionCount ++ " select=" ++ bracketed p.select

/-- The line of a node. -/
def Node.legendLine (x : Node) (id : NodeId) : String :=
  "  n" ++ toString id ++ " " ++ x.kind ++ x.remark ++ "\n"

/-- The line of an alpha memory. -/
def AlphaMemory.legendLine (m : AlphaMemory) : String :=
  "  a" ++ toString m.id ++ " \"" ++ m.key ++ "\" facts=" ++ toString m.facts.size ++
    (if m.excluded.isEmpty then "" else " excluding " ++ bracketed (m.excluded.map Term.text)) ++ "\n"

/-- The legend of a network. -/
def Network.legend (n : Network) : String :=
  "Nodes\n" ++ String.join (n.nodes.toList.zipIdx.map fun (x, id) => x.legendLine id) ++
    "Alpha memories\n" ++ String.join (n.alpha.memories.toList.map AlphaMemory.legendLine)

end TripleRules
