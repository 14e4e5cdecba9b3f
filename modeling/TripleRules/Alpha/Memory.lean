import TripleRules.Fact
import TripleRules.Ordered

/-!
# Alpha memories

An alpha memory holds the facts that arrived under one key, in the order of their arrival, and the join nodes that read them.
A memory that was created for a variable object can exclude objects.
-/

namespace TripleRules

/-- The position of an alpha memory in the alpha index. -/
abbrev AlphaId := Nat

/-- The position of a node in the network. -/
abbrev NodeId := Nat

/-- The facts that arrived under one key. -/
structure AlphaMemory where
  /-- The handle that the memory was given when it was created. -/
  id : AlphaId
  /-- The key the memory was created for. -/
  key : String
  /-- Whether the memory was created for a variable object. -/
  anyObject : Bool
  /-- The objects that were asked to be kept out, ascending. -/
  excluded : List Term
  /-- The join nodes that read the memory, in the order in which they were attached. -/
  successors : List NodeId
  /-- The facts of the batch, in arrival order. -/
  facts : Array FactId
  /-- The number of facts that ever arrived; a reset keeps it. -/
  received : Nat
  deriving DecidableEq, Repr

namespace AlphaMemory

/-- A memory that has not been used. -/
def fresh (id : AlphaId) (key : String) (anyObject : Bool) : AlphaMemory := ⟨id, key, anyObject, [], [], #[], 0⟩

/-- Whether a memory keeps facts with an object out: only one created for a variable object does. -/
def excludes (m : AlphaMemory) (object : Term) : Bool := m.anyObject && m.excluded.contains object

/-- Adds objects to keep out. -/
def exclude (m : AlphaMemory) (objects : List Term) : AlphaMemory :=
  { m with excluded := Ordered.merge compare objects m.excluded }

/-- Stores a fact. -/
def receive (m : AlphaMemory) (fact : FactId) : AlphaMemory :=
  { m with facts := m.facts.push fact, received := m.received + 1 }

/-- Attaches a join node, once. -/
def addSuccessor (m : AlphaMemory) (join : NodeId) : AlphaMemory :=
  if m.successors.contains join then m else { m with successors := m.successors ++ [join] }

/-- Drops the facts of the batch. -/
def clear (m : AlphaMemory) : AlphaMemory := { m with facts := #[] }

/-- The facts, most recent first. -/
def newestFirst (m : AlphaMemory) : List FactId := m.facts.toList.reverse

/-- The fact that arrived last is read first. -/
@[simp] theorem newestFirst_receive (m : AlphaMemory) (fact : FactId) :
    (m.receive fact).newestFirst = fact :: m.newestFirst := by
  simp [newestFirst, receive]

@[simp] theorem newestFirst_clear (m : AlphaMemory) : m.clear.newestFirst = [] := rfl

/-- A join node is attached next to those that were. -/
theorem mem_successors_addSuccessor (m : AlphaMemory) (join other : NodeId) :
    other ∈ (m.addSuccessor join).successors ↔ other = join ∨ other ∈ m.successors := by
  unfold addSuccessor
  split
  · rename_i h
    exact ⟨Or.inr, fun h' => h'.elim (fun he => he ▸ List.contains_iff_mem.1 h) fun hm => hm⟩
  · simp [or_comm]

/-- Attaching keeps every join node attached once. -/
theorem nodup_successors_addSuccessor {m : AlphaMemory} (h : m.successors.Nodup) (join : NodeId) :
    (m.addSuccessor join).successors.Nodup := by
  unfold addSuccessor
  split
  · exact h
  · rename_i hc
    refine List.nodup_append.2 ⟨h, List.nodup_cons.2 ⟨List.not_mem_nil, List.nodup_nil⟩, fun a ha b hb hab => hc ?_⟩
    rw [List.mem_singleton] at hb
    exact List.contains_iff_mem.2 (hb ▸ hab ▸ ha)

end AlphaMemory

end TripleRules
