import TripleRules.Alpha.Memory
import TripleRules.JoinTest
import TripleRules.Token

/-!
# Nodes

The nodes of a network form a tree below the top node. Join nodes and memories take turns, and every branch ends in a
production. A join pairs the tokens of the memory above it with the facts of an alpha memory; the memories and productions
below it store the pairs that pass its tests.
-/

namespace TripleRules

/-- A node that extends the tokens from above by facts of an alpha memory. -/
structure JoinNode where
  alpha : AlphaId
  tests : List JoinTest
  condition : Condition
  parent : NodeId
  children : List NodeId
  deriving DecidableEq, Repr

/-- A node that stores the tokens of a join for the joins below it. -/
structure MemoryNode where
  parent : NodeId
  children : List NodeId
  /-- The tokens, in arrival order. -/
  tokens : Array TokenId
  deriving DecidableEq, Repr

/-- A node that stores the complete matches of a rule. -/
structure ProductionNode where
  parent : NodeId
  rule : String
  select : List String
  conditionCount : Nat
  /-- The tokens, in arrival order. -/
  tokens : Array TokenId
  deriving DecidableEq, Repr

/-- A node of a network. -/
inductive Node where
  | top (children : List NodeId)
  | join (node : JoinNode)
  | memory (node : MemoryNode)
  | production (node : ProductionNode)
  deriving DecidableEq, Repr

/-- Whether a join reads the same memory, makes the same tests and stands for the same condition as one that is asked for. -/
def JoinNode.serves (j : JoinNode) (alpha : AlphaId) (tests : List JoinTest) (condition : Condition) : Bool :=
  j.alpha == alpha && j.tests == tests && j.condition == condition

/-- Whether a production holds a complete match. -/
def ProductionNode.isSatisfied (p : ProductionNode) : Bool := !p.tokens.isEmpty

namespace Node

/-- The word for the kind of a node. -/
def kind : Node → String
  | top _ => "dummy-top"
  | join _ => "join"
  | memory _ => "beta-memory"
  | production _ => "production"

/-- The node above; the top node has none. -/
def parent? : Node → Option NodeId
  | top _ => none
  | join j => some j.parent
  | memory m => some m.parent
  | production p => some p.parent

/-- The nodes below, in the order in which they were attached. -/
def children : Node → List NodeId
  | top children => children
  | join j => j.children
  | memory m => m.children
  | production _ => []

/-- Attaches a node below; nothing hangs below a production. -/
def attach? (child : NodeId) : Node → Option Node
  | top children => some (top (children ++ [child]))
  | join j => some (join { j with children := j.children ++ [child] })
  | memory m => some (memory { m with children := m.children ++ [child] })
  | production _ => none

/-- The stored tokens, in arrival order, if the node stores tokens. -/
def tokens? : Node → Option (Array TokenId)
  | memory m => some m.tokens
  | production p => some p.tokens
  | _ => none

/-- Stores a token, if the node stores tokens. -/
def store (token : TokenId) : Node → Node
  | memory m => memory { m with tokens := m.tokens.push token }
  | production p => production { p with tokens := p.tokens.push token }
  | other => other

/-- Drops the stored tokens. -/
def clear : Node → Node
  | memory m => memory { m with tokens := #[] }
  | production p => production { p with tokens := #[] }
  | other => other

/-- Storing a token leaves the place of a node in the tree as it was. -/
@[simp] theorem parent?_store (token : TokenId) (x : Node) : (x.store token).parent? = x.parent? := by
  cases x <;> rfl

@[simp] theorem children_store (token : TokenId) (x : Node) : (x.store token).children = x.children := by
  cases x <;> rfl

@[simp] theorem parent?_clear (x : Node) : x.clear.parent? = x.parent? := by
  cases x <;> rfl

@[simp] theorem children_clear (x : Node) : x.clear.children = x.children := by
  cases x <;> rfl

/-- A stored token comes last. -/
@[simp] theorem tokens?_store (token : TokenId) (x : Node) : (x.store token).tokens? = x.tokens?.map (·.push token) := by
  cases x <;> rfl

@[simp] theorem tokens?_clear (x : Node) : x.clear.tokens? = x.tokens?.map fun _ => #[] := by
  cases x <;> rfl

/-- Whether a node is a memory. -/
def isMemory : Node → Bool
  | memory _ => true
  | _ => false

end Node

end TripleRules
