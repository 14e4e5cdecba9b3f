import TripleRules.Condition

/-!
# Rules

A rule is a named list of conditions, with inequalities between variables and constants and a list of the variables that its
bindings report.
-/

namespace TripleRules

/-- An inequality. One side is meant to be a variable and the other a constant, in either order. -/
structure Inequality where
  left : Slot
  right : Slot
  deriving DecidableEq, Repr

namespace Inequality

/-- The variable and the constant of an inequality, if it pairs one with the other. -/
def pair? : Inequality → Option (String × Term)
  | ⟨.var name, .const term⟩ => some (name, term)
  | ⟨.const term, .var name⟩ => some (name, term)
  | _ => none

/-- The text of an inequality. -/
def text (i : Inequality) : String :=
  "notSameTerm(" ++ i.left.text ++ " " ++ i.right.text ++ ")"

end Inequality

/-- A named conjunction of conditions. -/
structure Rule where
  name : String
  conditions : List Condition
  inequalities : List Inequality
  select : List String
  deriving DecidableEq, Repr

namespace Rule

/-- A rule with a name and nothing else. -/
def named (name : String) : Rule := ⟨name, [], [], []⟩

/-- Appends a condition. -/
def addCondition (r : Rule) (c : Condition) : Rule := { r with conditions := r.conditions ++ [c] }

/-- Appends an inequality. -/
def addInequality (r : Rule) (left right : Slot) : Rule :=
  { r with inequalities := r.inequalities ++ [⟨left, right⟩] }

/-- Replaces the list of reported variables. -/
def withSelect (r : Rule) (names : List String) : Rule := { r with select := names }

/-- Whether some condition mentions a variable. -/
def mentions (r : Rule) (name : String) : Bool := r.conditions.any (·.mentions name)

/-- The text of a rule: its name, a colon, its conditions one space apart, then its inequalities, each after a space. -/
def text (r : Rule) : String :=
  r.name ++ ": " ++ " ".intercalate (r.conditions.map Condition.text) ++
    String.join (r.inequalities.map (" " ++ ·.text))

end Rule

end TripleRules
