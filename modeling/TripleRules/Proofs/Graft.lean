import TripleRules.Network.Compile

/-!
# Grafts

Compiling a rule changes the tree of nodes in one way only: a new node is put below an old one. The requests are written here
as a search for a node that is there already, followed by a graft where the search finds none.
-/

namespace TripleRules

/-- Whether a node is a join that serves a stage. -/
def Node.serves (alpha : AlphaId) (s : Stage) : Node → Bool
  | join j => j.serves alpha s.tests s.condition
  | _ => false

namespace Network

/-- Puts a new node below an old one. -/
def graft (n : Network) (parent : NodeId) (x : Node) : Outcome Network := (n.push x).2.attach parent n.nodes.size

/-- A graft puts a node at the end, attaches it to its parent, and touches nothing but nodes. -/
theorem graft_eq_ok {n n' : Network} {up : NodeId} {x : Node} (hg : n.graft up x = .ok n') :
    ∃ y y', (n.nodes.push x)[up]? = some y ∧ y.attach? n.nodes.size = some y' ∧
      n' = { n with nodes := (n.nodes.push x).setIfInBounds up y' } := by
  unfold graft push attach at hg
  split at hg
  · rename_i y' hy'
    obtain ⟨y, hy, ha⟩ := Option.bind_eq_some_iff.1 hy'
    exact ⟨y, y', hy, ha, (Except.ok.inj hg).symm⟩
  · nomatch hg

/-- Lets a new join read an alpha memory. -/
def enlist (n : Network) (alpha : AlphaId) (join : NodeId) : Outcome (NodeId × Network) :=
  if alpha < n.alpha.size then
    .ok (join, { n with
      alpha := n.alpha.modify alpha (·.addSuccessor join)
      sharing.joinsCreated := n.sharing.joinsCreated + 1 })
  else .error (.network .missingAlpha join)

/-- The network after a rule has got its production. -/
def register (n : Network) (r : Rule) (id : NodeId) : Network :=
  { n with productions := n.productions.push id, byName := n.byName.insert r.name id }

/-- A request for a join takes one that serves, or grafts a new one and enters it with its memory. -/
theorem requestJoin_eq (n : Network) (parent : NodeId) (alpha : AlphaId) (s : Stage) :
    n.requestJoin parent alpha s =
      match n.findChild? parent (Node.serves alpha s) with
      | some id => .ok (id, { n with sharing.joinsShared := n.sharing.joinsShared + 1 })
      | none => (n.graft parent (.join ⟨alpha, s.tests, s.condition, parent, []⟩)).bind (·.enlist alpha n.nodes.size) := rfl

/-- A request for a memory takes the one that is there, or grafts a new one. -/
theorem requestMemory_eq (n : Network) (join : NodeId) :
    n.requestMemory join =
      match n.findChild? join Node.isMemory with
      | some id => .ok (id, { n with sharing.memoriesShared := n.sharing.memoriesShared + 1 })
      | none => (n.graft join (.memory ⟨join, [], #[]⟩)).map fun n' =>
          (n.nodes.size, { n' with sharing.memoriesCreated := n'.sharing.memoriesCreated + 1 }) := rfl

/-- A production is grafted and registered. -/
theorem addProduction_eq (n : Network) (join : NodeId) (r : Rule) :
    n.addProduction join r =
      (n.graft join (.production ⟨join, r.name, r.select, r.conditions.length, #[]⟩)).map fun n' =>
        (n.nodes.size, n'.register r n.nodes.size) := rfl

end Network

end TripleRules
