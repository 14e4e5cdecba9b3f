import TripleRules.Alpha.Index
import TripleRules.Failure
import TripleRules.Network.Sharing
import TripleRules.Node
import TripleRules.Placement
import TripleRules.Token

/-!
# The network

A network holds the compiled rules and the state of one batch of facts. The rules are its nodes, its alpha memories and the
names of its productions. The batch is the facts, the tokens, and what the memories list of both; a reset forgets it.

Which memories a batch has written to is recorded, so that a reset has to visit no others.
-/

namespace TripleRules

/-- Work that waits: a fact that arrived at a join, or a token that arrived in a memory. -/
inductive Activation where
  | right (join : NodeId) (fact : FactId)
  | left (memory : NodeId) (token : TokenId)
  deriving DecidableEq, Repr

/-- The compiled rules and the state of a batch. -/
structure Network where
  /-- The nodes, in the order of their creation. The first is the top node. -/
  nodes : Array Node
  /-- The alpha memories. -/
  alpha : AlphaIndex
  /-- The tokens of the batch. -/
  tokens : TokenStore
  /-- The distinct facts of the batch, in the order of their arrival. -/
  facts : Array Fact
  /-- The handle of each fact of the batch; a fact that is in it is not taken in again. -/
  seen : FactTable
  /-- Where the tokens are stored, and which pair each stands for. -/
  stored : PlacementSet
  /-- The productions, in the order in which their rules were compiled. -/
  productions : Array NodeId
  /-- The production of each rule name; a later rule takes the name over. -/
  byName : Table NodeId
  /-- The production that was last given a match, for each rule name. -/
  satisfied : Table NodeId
  /-- The alpha memories that the batch has written to. -/
  touchedAlphas : List AlphaId
  /-- The nodes that the batch has written to. -/
  touchedNodes : List NodeId
  /-- The work that waits, what is done next first. -/
  pending : List Activation
  /-- How often parts of the network were created and shared. -/
  sharing : Sharing
  deriving Repr

/-- The handle of the top node. -/
def topNode : NodeId := 0

namespace Network

/-- The network without rules and facts. -/
def empty : Network where
  nodes := #[.top []]
  alpha := .empty
  tokens := .empty
  facts := #[]
  seen := ∅
  stored := ∅
  productions := #[]
  byName := .empty
  satisfied := .empty
  touchedAlphas := []
  touchedNodes := []
  pending := []
  sharing := .zero

instance : Inhabited Network := ⟨empty⟩

/-! ## Nodes by handle -/

/-- The node with a handle. -/
def node (n : Network) (id : NodeId) : Outcome Node :=
  match n.nodes[id]? with
  | some x => .ok x
  | none => .error (.network .missingNode id)

/-- The join node with a handle. -/
def joinNode (n : Network) (id : NodeId) : Outcome JoinNode :=
  match n.node id with
  | .ok (.join j) => .ok j
  | .ok x => .error (.network (.notJoin x.kind) id)
  | .error e => .error e

/-- The production with a handle. -/
def productionNode (n : Network) (id : NodeId) : Outcome ProductionNode :=
  match n.node id with
  | .ok (.production p) => .ok p
  | .ok x => .error (.network (.notProduction x.kind) id)
  | .error e => .error e

/-- The nodes below a node. -/
def childrenOf (n : Network) (id : NodeId) : Outcome (List NodeId) := (n.node id).map (·.children)

/-- The tokens that a node stores, most recent first. -/
def tokensOf (n : Network) (id : NodeId) : Outcome (List TokenId) :=
  match n.node id with
  | .ok x =>
    match x.tokens? with
    | some tokens => .ok tokens.toList.reverse
    | none => .error (.network .noTokens id)
  | .error e => .error e

/-! ## Facts and rules by handle and name -/

/-- The fact with a handle. -/
def fact? (n : Network) (id : FactId) : Option Fact := n.facts[id]?

/-- The newest production of a rule name. -/
def production? (n : Network) (rule : String) : Option NodeId := n.byName.find? rule

/-- Whether a rule of a name was compiled. -/
def isRegistered (n : Network) (rule : String) : Bool := n.byName.contains rule

/-- The number of compiled rules. -/
def ruleCount (n : Network) : Nat := n.productions.size

/-- The names of the satisfied rules, in ascending order. -/
def satisfiedNames (n : Network) : List String := Ordered.sort compare n.satisfied.names

end Network

end TripleRules
