import TripleRules.Network.Bindings

/-!
# Matches

What evaluating a batch answers: the satisfied rules, each with its bindings.
-/

namespace TripleRules

/-- The bindings of each satisfied rule. -/
structure Matches where
  rules : Table Bindings
  deriving DecidableEq, Repr

namespace Matches

/-- The matches of a batch that satisfies no rule. -/
def empty : Matches := ⟨.empty⟩

/-- Whether a rule is satisfied. -/
def isSatisfied (m : Matches) (rule : String) : Bool := m.rules.contains rule

/-- The bindings of a rule, if it is satisfied. -/
def bindings? (m : Matches) (rule : String) : Option Bindings := m.rules.find? rule

/-- The names of the satisfied rules, in ascending order. -/
def names (m : Matches) : List String := Ordered.sort compare m.rules.names

/-- The number of satisfied rules. -/
def size (m : Matches) : Nat := m.rules.size

/-- Whether no rule is satisfied. -/
def isEmpty (m : Matches) : Bool := m.rules.isEmpty

end Matches

/-- The matches of the batch: every satisfied name with its bindings, by ascending name. -/
def Network.allMatches (n : Network) : Outcome Matches := do
  let rules ← n.satisfiedNames.foldlM (fun (t : Table Bindings) rule => do
    match ← n.bindings rule with
    | some b => return t.insert rule b
    | none => return t) .empty
  return ⟨rules⟩

end TripleRules
