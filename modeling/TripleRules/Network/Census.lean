import TripleRules.Network

/-!
# The census of a network

How many parts of each kind a network has, and how many tokens, facts and satisfied rules the batch has.
-/

namespace TripleRules

/-- The counts of a network. -/
structure Census where
  alphas : Nat
  joins : Nat
  memories : Nat
  productions : Nat
  tokens : Nat
  facts : Nat
  satisfied : Nat
  sharing : Sharing
  deriving DecidableEq, Repr

/-- The counts in one line, those of the sharing left out. -/
def Census.text (c : Census) : String :=
  "Nodes: α:" ++ toString c.alphas ++ " J:" ++ toString c.joins ++ " β:" ++ toString c.memories ++ " P:" ++
    toString c.productions ++ ", Tokens: " ++ toString c.tokens ++ ", Facts: " ++ toString c.facts ++ ", Satisfied: " ++
    toString c.satisfied

/-- Whether a node is a join. -/
def Node.isJoin : Node → Bool
  | join _ => true
  | _ => false

/-- Whether a node is a production. -/
def Node.isProduction : Node → Bool
  | production _ => true
  | _ => false

/-- The census of a network. -/
def Network.census (n : Network) : Census where
  alphas := n.alpha.size
  joins := n.nodes.toList.countP Node.isJoin
  memories := n.nodes.toList.countP Node.isMemory
  productions := n.nodes.toList.countP Node.isProduction
  tokens := n.tokens.size
  facts := n.facts.size
  satisfied := n.satisfied.size
  sharing := n.sharing

end TripleRules
