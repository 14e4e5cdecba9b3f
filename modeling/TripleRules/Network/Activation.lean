import TripleRules.Network

/-!
# Activations

Facts and tokens travel through the network by activations. A fact that arrives at a join is paired with the tokens from
above; a token that arrives in a memory is paired with the facts of the joins below it. Each pair that passes the tests of the
join is stored below it, unless the same pair is stored there already. A token stored in a memory is itself an activation; a
token stored in a production is a complete match.

Activations wait on a stack, and the one that was put there last is done first.
-/

namespace TripleRules.Network

/-- Whether a test holds between a new fact and the chain of a token. A test whose earlier fact is missing holds. -/
def holds (n : Network) (token : TokenId) (new : Fact) (t : JoinTest) : Bool :=
  let old := do
    let a ← n.tokens.ancestor? token (t.levelsUp - 1)
    let f ← n.tokens.fact? a
    n.facts[f]?
  match old with
  | some old => t.newField.read new == t.oldField.read old
  | none => true

/-- Whether a token and a fact pass the tests of a join. The root passes every test; a missing token or fact passes none. -/
def passes (n : Network) (tests : List JoinTest) (token : TokenId) (fact : FactId) : Bool :=
  if token = rootToken then true
  else if n.tokens.contains token then
    match n.facts[fact]? with
    | some new => tests.all (n.holds token new)
    | none => false
  else false

/-- Adds a handle to a list that records handles, once. -/
def record (ids : List Nat) (id : Nat) : List Nat := if ids.contains id then ids else id :: ids

/-- A recorded handle is there next to those that were. -/
theorem mem_record (ids : List Nat) (id other : Nat) : other ∈ record ids id ↔ other = id ∨ other ∈ ids := by
  unfold record
  split
  · rename_i h
    exact ⟨Or.inr, fun h' => h'.elim (fun he => he ▸ List.contains_iff_mem.1 h) fun hm => hm⟩
  · exact List.mem_cons

/-- Stores a new token in a node for the pair of a token and a fact that matched a condition. -/
def place (condition : Condition) (parent : TokenId) (fact : FactId) (n : Network) (node : NodeId) : TokenId × Network :=
  let (token, tokens) := n.tokens.push parent fact condition.subjectVar? condition.objectVar?
  (token, { n with
    tokens
    stored := n.stored.insert ⟨node, parent, fact⟩
    nodes := n.nodes.modify node (·.store token)
    touchedNodes := record n.touchedNodes node })

/-- Lets a production answer for its rule. -/
def promote (rule : String) (production : NodeId) (n : Network) : Network :=
  { n with satisfied := n.satisfied.insert rule production }

/-- Stores the pair of a token and a fact in a node below a join of a condition, unless it is stored there already. In a
production the pair completes a match: the production answers for its rule, and the chain is flagged. In a memory the pair is
passed on. -/
def deliver (condition : Condition) (parent : TokenId) (fact : FactId) (n : Network) (child : NodeId) : Outcome Network :=
  if n.stored.contains ⟨child, parent, fact⟩ then .ok n
  else
    match n.nodes[child]? with
    | some (.memory _) =>
      let (token, n) := place condition parent fact n child
      .ok { n with pending := .left child token :: n.pending }
    | some (.production p) =>
      let (token, n) := place condition parent fact (promote p.rule child n) child
      .ok { n with tokens := n.tokens.flagChain token }
    | _ => .error (.network .misplacedChild child)

/-- Delivers a pair to all nodes below a join. -/
def emit (n : Network) (join : NodeId) (parent : TokenId) (fact : FactId) : Outcome Network := do
  let j ← n.joinNode join
  j.children.foldlM (deliver j.condition parent fact) n

/-- The tokens that reach a join from above, in arrival order: the root below the top node, the stored tokens below a
memory. -/
def leftTokens (n : Network) (parent : NodeId) : Outcome (List TokenId) :=
  match n.node parent with
  | .ok (.top _) => .ok [rootToken]
  | .ok (.memory m) => .ok m.tokens.toList
  | .ok _ => .error (.network .misplacedJoin parent)
  | .error e => .error e

/-- Pairs a new fact with the tokens that reach a join. Which tokens pass is settled before the first pair is stored. -/
def activateRight (n : Network) (join : NodeId) (fact : FactId) : Outcome Network := do
  let j ← n.joinNode join
  let tokens ← n.leftTokens j.parent
  (tokens.filter fun t => n.passes j.tests t fact).foldlM (fun n t => n.emit join t fact) n

/-- Pairs a new token with the facts of a join, most recent first. Which facts pass is settled before the first pair is
stored. -/
def extend (token : TokenId) (n : Network) (join : NodeId) : Outcome Network := do
  let j ← n.joinNode join
  match n.alpha.get? j.alpha with
  | some m => (m.newestFirst.filter fun f => n.passes j.tests token f).foldlM (fun n f => n.emit join token f) n
  | none => .error (.network .missingAlpha join)

/-- Pairs a new token with the facts of all joins below its memory, in the order of the joins. -/
def activateLeft (n : Network) (memory : NodeId) (token : TokenId) : Outcome Network := do
  (← n.childrenOf memory).foldlM (extend token) n

/-- Does one activation. -/
def activate (n : Network) : Activation → Outcome Network
  | .right join fact => n.activateRight join fact
  | .left memory token => n.activateLeft memory token

/-- Does the waiting activations, at most the given number, the last one put on the stack first. -/
def runUpTo : Nat → Network → Outcome Network
  | 0, n => .ok n
  | k + 1, n =>
    match n.pending with
    | [] => .ok n
    | a :: rest => do
      let n ← { n with pending := rest }.activate a
      runUpTo k n

/-- More activations than can follow. Each one that waits is done once, and each further one stems from a new token in some
node; there the chains of tokens differ, and a chain is no longer than the network has nodes. -/
def workBound (n : Network) : Nat := n.pending.length + n.nodes.size * Nat.pow (n.facts.size + 1) n.nodes.size

/-- Does all waiting activations. -/
def run (n : Network) : Outcome Network := runUpTo n.workBound n

end TripleRules.Network
