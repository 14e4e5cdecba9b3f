import TripleRules.Fact

/-!
# Conditions

A condition is a triple whose subject and object may be variables. Its predicate is always a constant.
-/

namespace TripleRules

/-- A place of a condition: a variable, named verbatim, or a constant that has to match exactly. -/
inductive Slot where
  | var (name : String)
  | const (term : Term)
  deriving DecidableEq, Repr

namespace Slot

/-- Whether a slot is a variable. -/
def isVar : Slot → Bool
  | var _ => true
  | const _ => false

/-- The name of the variable, if the slot is one. -/
def varName? : Slot → Option String
  | var name => some name
  | const _ => none

/-- The constant, if the slot is one. -/
def constant? : Slot → Option Term
  | var _ => none
  | const term => some term

/-- The text of a slot: the name of the variable or the text of the constant. -/
def text : Slot → String
  | var name => name
  | const term => term.text

end Slot

/-- A triple pattern. The subject is meant to be a variable; a rule with any other subject is refused when it is compiled. -/
structure Condition where
  subject : Slot
  predicate : Term
  object : Slot
  deriving DecidableEq, Repr

namespace Condition

/-- A condition between two variables. -/
def between (subject : String) (predicate : Term) (object : String) : Condition :=
  ⟨.var subject, predicate, .var object⟩

/-- A condition whose object is a constant. -/
def withConstant (subject : String) (predicate object : Term) : Condition :=
  ⟨.var subject, predicate, .const object⟩

/-- The slot at a field. -/
def slot (c : Condition) : Field → Slot
  | .subject => c.subject
  | .object => c.object

/-- The variable in the subject place, if there is one. -/
def subjectVar? (c : Condition) : Option String := c.subject.varName?

/-- The variable in the object place, if there is one. -/
def objectVar? (c : Condition) : Option String := c.object.varName?

/-- Whether a condition mentions a variable, in either place. -/
def mentions (c : Condition) (name : String) : Bool :=
  c.subjectVar? == some name || c.objectVar? == some name

/-- The first field that holds a variable: the subject is looked at before the object. -/
def fieldOf? (c : Condition) (name : String) : Option Field :=
  if c.subjectVar? = some name then some .subject
  else if c.objectVar? = some name then some .object
  else none

/-- The text of a condition: its three places between parentheses. -/
def text (c : Condition) : String :=
  "(" ++ c.subject.text ++ " " ++ c.predicate.text ++ " " ++ c.object.text ++ ")"

end Condition

end TripleRules
