import TripleRules.Network.Activation

/-!
# Batches

A batch is a set of facts that arrive one after the other. A reset ends it and leaves the compiled rules as they are.
-/

namespace TripleRules.Network

/-- Stores a fact in an alpha memory and lets it arrive at the joins that read the memory. -/
def receive (fact : FactId) (n : Network) (id : AlphaId) : Outcome Network :=
  match n.alpha.get? id with
  | some m => .ok { n with
      alpha := n.alpha.modify id (·.receive fact)
      touchedAlphas := record n.touchedAlphas id
      pending := (m.successors.map (Activation.right · fact)).reverse ++ n.pending }
  | none => .error (.network .missingMemory id)

/-- Inserts a fact and does all that follows from it. A fact that the batch has seen already changes nothing; the answer says
whether the fact was new. -/
def addFact (n : Network) (f : Fact) : Outcome (Bool × Network) :=
  if n.seen.contains f then .ok (false, n)
  else do
    let id := n.facts.size
    let n' ← (n.alpha.route f).foldlM (receive id) { n with seen := n.seen.insert f id, facts := n.facts.push f }
    .ok (true, ← n'.run)

/-- Inserts facts one after the other. -/
def addFacts (n : Network) (fs : List Fact) : Outcome Network := fs.foldlM (fun n f => (n.addFact f).map (·.2)) n

/-- Forgets the batch. Only the memories that it has written to are visited. -/
def reset (n : Network) : Network :=
  { n with
    satisfied := .empty
    alpha := n.touchedAlphas.foldl (fun x id => x.modify id (·.clear)) n.alpha
    touchedAlphas := []
    nodes := n.touchedNodes.foldl (fun xs id => xs.modify id (·.clear)) n.nodes
    touchedNodes := []
    tokens := n.tokens.clear
    stored := ∅
    seen := ∅
    facts := #[]
    pending := [] }

end TripleRules.Network
