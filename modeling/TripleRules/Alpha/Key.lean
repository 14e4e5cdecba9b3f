import TripleRules.Condition

/-!
# Routing keys

A fact is routed to the conditions that can use it by a text. A condition with a variable object has the text of its predicate
as its key; a condition with a constant object has the texts of predicate and object, one space apart. Keys are compared as
texts: nothing in them is escaped, so terms whose texts run together share a key.
-/

namespace TripleRules

/-- The key of a predicate with a constant object. -/
def constantKey (predicate object : Term) : String := predicate.text ++ " " ++ object.text

/-- The key of a predicate with any object. -/
def slotKey (predicate : Term) : Slot → String
  | .var _ => predicate.text
  | .const term => constantKey predicate term

/-- The key of the facts a condition can use. -/
def Condition.key (c : Condition) : String := slotKey c.predicate c.object

end TripleRules
