import TripleRules.Form.Rule
import TripleRules.Matches

/-!
# The JSON form of matches

Matches are a record of one field, an object that gives each rule the object of its bindings.
-/

namespace TripleRules

namespace Bindings

/-- The JSON form of bindings. -/
def toJson (b : Bindings) : Json := .ofTable Term.toJson b

/-- Reads bindings. -/
def ofJson? (j : Json) : Option Bindings := j.tableOf? Term.ofJson?

end Bindings

namespace Matches

/-- The JSON form of matches. -/
def toJson (m : Matches) : Json := .object [("rules", .ofTable Bindings.toJson m.rules)]

/-- Reads matches. -/
def ofJson? (j : Json) : Option Matches := do
  match ← j.record? ["rules"] with
  | [some rules] => return ⟨← rules.tableOf? Bindings.ofJson?⟩
  | _ => none

end Matches

end TripleRules
