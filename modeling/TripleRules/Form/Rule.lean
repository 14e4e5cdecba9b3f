import TripleRules.Json
import TripleRules.Rule

/-!
# The JSON form of rules

A value of one of several kinds is an object whose only member is named for the kind. A record is an object of its fields, and
is also read from an array of them (`Json.record?`). The inequalities and the selected variables of a rule may be left out.
-/

namespace TripleRules

namespace Term

/-- The JSON form of a term. -/
def toJson : Term → Json
  | resource name => .object [("Resource", .string name)]
  | literal value => .object [("Literal", .string value)]

/-- Reads a term. -/
def ofJson? (j : Json) : Option Term :=
  match j.single? with
  | some ("Resource", .string name) => some (resource name)
  | some ("Literal", .string value) => some (literal value)
  | _ => none

end Term

namespace Fact

/-- The JSON form of a fact. -/
def toJson (f : Fact) : Json :=
  .object [("subject", f.subject.toJson), ("predicate", f.predicate.toJson), ("object", f.object.toJson)]

/-- Reads a fact. -/
def ofJson? (j : Json) : Option Fact := do
  match ← j.record? ["subject", "predicate", "object"] with
  | [some s, some p, some o] => return ⟨← Term.ofJson? s, ← Term.ofJson? p, ← Term.ofJson? o⟩
  | _ => none

end Fact

namespace Slot

/-- The JSON form of a slot. -/
def toJson : Slot → Json
  | var name => .object [("Variable", .string name)]
  | const term => .object [("Constant", term.toJson)]

/-- Reads a slot. -/
def ofJson? (j : Json) : Option Slot :=
  match j.single? with
  | some ("Variable", .string name) => some (var name)
  | some ("Constant", term) => (Term.ofJson? term).map const
  | _ => none

end Slot

namespace Condition

/-- The JSON form of a condition. -/
def toJson (c : Condition) : Json :=
  .object [("subject", c.subject.toJson), ("predicate", c.predicate.toJson), ("object", c.object.toJson)]

/-- Reads a condition. -/
def ofJson? (j : Json) : Option Condition := do
  match ← j.record? ["subject", "predicate", "object"] with
  | [some s, some p, some o] => return ⟨← Slot.ofJson? s, ← Term.ofJson? p, ← Slot.ofJson? o⟩
  | _ => none

end Condition

namespace Inequality

/-- The JSON form of an inequality. -/
def toJson (i : Inequality) : Json := .object [("left", i.left.toJson), ("right", i.right.toJson)]

/-- Reads an inequality. -/
def ofJson? (j : Json) : Option Inequality := do
  match ← j.record? ["left", "right"] with
  | [some l, some r] => return ⟨← Slot.ofJson? l, ← Slot.ofJson? r⟩
  | _ => none

end Inequality

namespace Rule

/-- The JSON form of a rule. -/
def toJson (r : Rule) : Json :=
  .object [("name", .string r.name), ("conditions", .ofList Condition.toJson r.conditions),
    ("not_same_terms", .ofList Inequality.toJson r.inequalities), ("select", .ofList .string r.select)]

/-- Reads a rule. The inequalities and the selected variables are empty where they are left out. -/
def ofJson? (j : Json) : Option Rule := do
  match ← j.record? ["name", "conditions", "not_same_terms", "select"] with
  | [some n, some cs, is, ss] =>
    return {
      name := ← n.string?
      conditions := ← cs.listOf? Condition.ofJson?
      inequalities := ← (is.getD (.array [])).listOf? Inequality.ofJson?
      select := ← (ss.getD (.array [])).listOf? Json.string? }
  | _ => none

end Rule

end TripleRules
