import TripleRules.Network

/-!
# Specificity

The score of a production counts the flagged tokens in the memories on the way from it up to the top node, so it grows with
the conditions that a rule has beyond the first. The satisfied rules are ranked by their scores, and the most specific rule is
the one that is ranked first, unless it has to share its rank.
-/

namespace TripleRules

/-- A satisfied rule and its score. -/
structure RankedRule where
  rule : String
  score : Nat
  deriving DecidableEq, Repr

/-- A higher score comes first; of equal scores, the smaller name. -/
def RankedRule.compare (a b : RankedRule) : Ordering :=
  (Ord.compare b.score a.score).then (Ord.compare a.rule b.rule)

/-- The first of ranked rules, if its score is not that of the next one as well. In a tie all rules of that score at the head
of the list are named. -/
def mostSpecific : List RankedRule → Outcome (Option String)
  | [] => .ok none
  | best :: rest =>
    match rest.takeWhile (·.score == best.score) with
    | [] => .ok (some best.rule)
    | tied => .error (.ambiguous (best.rule :: tied.map (·.rule)) best.score)

namespace Network

/-- The flagged tokens that a memory stores; other nodes count none. -/
def flaggedIn (n : Network) : Node → Nat
  | .memory m => m.tokens.toList.countP n.tokens.isFlagged
  | _ => 0

/-- The flagged tokens in the memories from a node up, over at most the given number of nodes. -/
def scoreUpTo (n : Network) : Nat → Option NodeId → Outcome Nat
  | _, none => .ok 0
  | 0, some _ => .ok 0
  | k + 1, some id => do
    let x ← n.node id
    let above ← n.scoreUpTo k x.parent?
    return n.flaggedIn x + above

/-- The score of a node: the flagged tokens in the memories above it. -/
def score (n : Network) (id : NodeId) : Outcome Nat := do
  n.scoreUpTo n.nodes.size (← n.node id).parent?

/-- The satisfied rules with their scores, best first. -/
def rankedRules (n : Network) : Outcome (List RankedRule) := do
  let ranked ← n.satisfied.entries.mapM fun (rule, id) => (n.score id).map (RankedRule.mk rule)
  return Ordered.sort RankedRule.compare ranked

/-- The most specific of the satisfied rules. -/
def mostSpecificRule (n : Network) : Outcome (Option String) := do
  mostSpecific (← n.rankedRules)

end Network

end TripleRules
