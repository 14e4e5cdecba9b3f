import TripleRules.Form.Rule
import TripleRules.Network.Census
import TripleRules.Network.Specificity

/-!
# The JSON form of what a network reports

Join tests, ranked rules and counts are records. A field is named by its word, or by an object whose only member has that name
and holds nothing.
-/

namespace TripleRules

namespace Field

/-- The JSON form of a field. -/
def toJson : Field → Json
  | subject => .string "Subject"
  | object => .string "Object"

/-- The field of a name. -/
def ofName? : String → Option Field
  | "Subject" => some subject
  | "Object" => some object
  | _ => none

/-- Reads a field. -/
def ofJson? : Json → Option Field
  | .string name => ofName? name
  | .object [(name, .null)] => ofName? name
  | _ => none

end Field

namespace JoinTest

/-- The JSON form of a join test. -/
def toJson (t : JoinTest) : Json :=
  .object [("variable", .string t.variableName), ("arg1_field", t.newField.toJson), ("levels_up", .natural t.levelsUp),
    ("arg2_field", t.oldField.toJson)]

/-- Reads a join test. -/
def ofJson? (j : Json) : Option JoinTest := do
  match ← j.record? ["variable", "arg1_field", "levels_up", "arg2_field"] with
  | [some v, some new, some up, some old] =>
    return ⟨← v.string?, ← Field.ofJson? new, ← up.natural?, ← Field.ofJson? old⟩
  | _ => none

end JoinTest

namespace RankedRule

/-- The JSON form of a ranked rule. -/
def toJson (r : RankedRule) : Json := .object [("rule_name", .string r.rule), ("score", .natural r.score)]

/-- Reads a ranked rule. -/
def ofJson? (j : Json) : Option RankedRule := do
  match ← j.record? ["rule_name", "score"] with
  | [some rule, some score] => return ⟨← rule.string?, ← score.natural?⟩
  | _ => none

end RankedRule

namespace Sharing

/-- The names of the counters. -/
def fieldNames : List String :=
  ["alpha_memories_created", "alpha_shares_found", "join_nodes_created", "join_shares_found", "beta_memories_created",
    "beta_shares_found"]

/-- The JSON form of sharing counters. -/
def toJson (s : Sharing) : Json :=
  .object (fieldNames.zip ([s.alphaCreated, s.alphaShared, s.joinsCreated, s.joinsShared, s.memoriesCreated,
    s.memoriesShared].map .natural))

/-- Reads sharing counters. -/
def ofJson? (j : Json) : Option Sharing := do
  match ← j.record? fieldNames with
  | [some ac, some as, some jc, some js, some mc, some ms] =>
    return ⟨← ac.natural?, ← as.natural?, ← jc.natural?, ← js.natural?, ← mc.natural?, ← ms.natural?⟩
  | _ => none

end Sharing

namespace Census

/-- The names of the counts. -/
def fieldNames : List String :=
  ["alpha_memories", "join_nodes", "beta_memories", "production_nodes", "tokens", "facts", "satisfied_rules", "sharing"]

/-- The JSON form of a census. -/
def toJson (c : Census) : Json :=
  .object (fieldNames.zip ([c.alphas, c.joins, c.memories, c.productions, c.tokens, c.facts, c.satisfied].map .natural ++
    [c.sharing.toJson]))

/-- Reads a census. -/
def ofJson? (j : Json) : Option Census := do
  match ← j.record? fieldNames with
  | [some a, some jn, some m, some p, some t, some f, some s, some sh] =>
    return ⟨← a.natural?, ← jn.natural?, ← m.natural?, ← p.natural?, ← t.natural?, ← f.natural?, ← s.natural?,
      ← Sharing.ofJson? sh⟩
  | _ => none

end Census

end TripleRules
