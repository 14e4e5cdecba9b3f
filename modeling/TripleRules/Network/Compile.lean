import TripleRules.Network
import TripleRules.Network.Stage

/-!
# Compiling rules

A rule is compiled stage by stage from the top node down. Each stage asks for an alpha memory and for a join that reads it;
every stage but the first hangs below the memory of the join before it. What is there already is shared: an alpha memory with
the same key, a join below the same parent with the same condition and tests, the one memory below a join. A production of its
own ends the branch of every rule.
-/

namespace TripleRules.Network

/-- Adds a node and gives its handle. -/
def push (n : Network) (x : Node) : NodeId × Network := (n.nodes.size, { n with nodes := n.nodes.push x })

/-- Attaches a node below another one. -/
def attach (n : Network) (parent child : NodeId) : Outcome Network :=
  match n.nodes[parent]?.bind (·.attach? child) with
  | some x => .ok { n with nodes := n.nodes.setIfInBounds parent x }
  | none => .error (.network .noChildren parent)

/-- The nodes below a node that pass a check, the one attached first. -/
def findChild? (n : Network) (parent : NodeId) (p : Node → Bool) : Option NodeId := do
  let x ← n.nodes[parent]?
  x.children.find? fun id => n.nodes[id]?.any p

/-- The alpha memory of a stage. -/
def requestAlpha (n : Network) (s : Stage) : AlphaId × Network :=
  let (id, alpha) := n.alpha.request s.condition.predicate s.condition.object s.excluded
  let sharing :=
    if n.alpha.size < alpha.size then { n.sharing with alphaCreated := n.sharing.alphaCreated + 1 }
    else { n.sharing with alphaShared := n.sharing.alphaShared + 1 }
  (id, { n with alpha, sharing })

/-- The join of a stage below a node. -/
def requestJoin (n : Network) (parent : NodeId) (alpha : AlphaId) (s : Stage) : Outcome (NodeId × Network) :=
  let serves : Node → Bool
    | .join j => j.serves alpha s.tests s.condition
    | _ => false
  match n.findChild? parent serves with
  | some id => .ok (id, { n with sharing.joinsShared := n.sharing.joinsShared + 1 })
  | none => do
    let (id, n) := n.push (.join ⟨alpha, s.tests, s.condition, parent, []⟩)
    let n ← n.attach parent id
    if alpha < n.alpha.size then
      .ok (id, { n with
        alpha := n.alpha.modify alpha (·.addSuccessor id)
        sharing.joinsCreated := n.sharing.joinsCreated + 1 })
    else .error (.network .missingAlpha id)

/-- The memory below a join. -/
def requestMemory (n : Network) (join : NodeId) : Outcome (NodeId × Network) :=
  match n.findChild? join Node.isMemory with
  | some id => .ok (id, { n with sharing.memoriesShared := n.sharing.memoriesShared + 1 })
  | none => do
    let (id, n) := n.push (.memory ⟨join, [], #[]⟩)
    let n ← n.attach join id
    .ok (id, { n with sharing.memoriesCreated := n.sharing.memoriesCreated + 1 })

/-- The alpha memory and the join of a stage below a node. -/
def addStage (n : Network) (parent : NodeId) (s : Stage) : Outcome (NodeId × Network) :=
  let (alpha, n) := n.requestAlpha s
  n.requestJoin parent alpha s

/-- The stages below a join, each below the memory of the one before. The handle is that of the last join. -/
def addStages : Network → NodeId → List Stage → Outcome (NodeId × Network)
  | n, join, [] => .ok (join, n)
  | n, join, s :: ss => do
    let (memory, n) ← n.requestMemory join
    let (next, n) ← n.addStage memory s
    n.addStages next ss

/-- The production of a rule below its last join. The rule takes its name over from an earlier rule. -/
def addProduction (n : Network) (join : NodeId) (r : Rule) : Outcome (NodeId × Network) := do
  let (id, n) := n.push (.production ⟨join, r.name, r.select, r.conditions.length, #[]⟩)
  let n ← n.attach join id
  .ok (id, { n with productions := n.productions.push id, byName := n.byName.insert r.name id })

/-- Compiles a rule and gives the handle of its production. -/
def addRule (n : Network) (r : Rule) : Outcome (NodeId × Network) := do
  r.check
  match r.stages with
  | [] => .error (r.failure .noConditions)
  | s :: ss =>
    let (join, n) ← n.addStage topNode s
    let (last, n) ← n.addStages join ss
    n.addProduction last r

end TripleRules.Network
