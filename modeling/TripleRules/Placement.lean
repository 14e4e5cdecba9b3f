import Std.Data.TreeSet
import TripleRules.Alpha.Memory
import TripleRules.Token

/-!
# Placements

A placement says where a token is stored: in which node, and for which pair of a parent token and a fact. A node stores a pair
at most once, so the placements of a batch are a set. They are kept in an ordered tree, in which a look-up takes a number of
steps that grows with the logarithm of the size.
-/

namespace TripleRules

/-- The node that stores a token, and the pair that the token stands for. -/
structure Placement where
  node : NodeId
  parent : TokenId
  fact : FactId
  deriving DecidableEq, Repr

namespace Placement

/-- Placements are ordered by their nodes, then by their parents, then by their facts. -/
def compare : Placement → Placement → Ordering :=
  compareLex (compareOn Placement.node) (compareLex (compareOn Placement.parent) (compareOn Placement.fact))

/-- Only equal placements compare as equal. -/
theorem compare_eq_iff (a b : Placement) : a.compare b = .eq ↔ a = b := by
  cases a
  cases b
  simp [compare, compareLex, compareOn, Ordering.then_eq_eq]

instance : Std.TransCmp compare :=
  inferInstanceAs (Std.TransCmp (compareLex (compareOn Placement.node)
    (compareLex (compareOn Placement.parent) (compareOn Placement.fact))))

instance : Std.LawfulEqCmp compare where
  compare_self := (compare_eq_iff _ _).2 rfl
  eq_of_compare := (compare_eq_iff _ _).1

end Placement

/-- A set of placements. -/
abbrev PlacementSet : Type := Std.TreeSet Placement Placement.compare

namespace PlacementSet

@[simp] theorem contains_empty (p : Placement) : (∅ : PlacementSet).contains p = false :=
  Std.TreeSet.contains_emptyc

/-- An insertion adds one placement and keeps the others. -/
theorem contains_insert (ps : PlacementSet) (p q : Placement) :
    Std.TreeSet.contains (ps.insert p) q = true ↔ q = p ∨ ps.contains q = true := by
  rw [Std.TreeSet.contains_insert, Bool.or_eq_true, beq_iff_eq, Placement.compare_eq_iff, eq_comm]

end PlacementSet

end TripleRules
