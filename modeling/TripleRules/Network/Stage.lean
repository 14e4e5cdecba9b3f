import TripleRules.Failure
import TripleRules.JoinTest
import TripleRules.Ordered

/-!
# The stages of a rule

Before a rule is compiled it is checked, and each of its conditions becomes a stage: the condition with its join tests and the
objects that its alpha memory has to keep out. Nothing of the network is read or written here, so a rule that is refused
leaves no trace.
-/

namespace TripleRules

/-- A condition as it is compiled. -/
structure Stage where
  condition : Condition
  tests : List JoinTest
  excluded : List Term
  deriving DecidableEq, Repr

namespace Rule

/-- A failure that concerns a whole rule. -/
def failure (r : Rule) (fault : RuleFault) : Failure := .rule fault (some r.name) none

/-- Refuses the first condition whose subject is a constant. The number is the position of the first of the conditions. -/
def checkSubjects (r : Rule) : Nat → List Condition → Outcome Unit
  | _, [] => .ok ()
  | i, c :: cs =>
    if c.subject.isVar then r.checkSubjects (i + 1) cs
    else .error (.rule (.constantSubject c) (some r.name) (some i))

/-- Refuses an inequality that does not pair a variable with a constant, or whose variable no condition mentions. -/
def checkInequality (r : Rule) (i : Inequality) : Outcome Unit :=
  match i.pair? with
  | none => .error (r.failure (.unpaired i))
  | some (name, _) => if r.mentions name then .ok () else .error (r.failure (.unboundInequality i name))

/-- Refuses a selected variable that no condition mentions. -/
def checkSelected (r : Rule) (name : String) : Outcome Unit :=
  if r.mentions name then .ok () else .error (r.failure (.unboundSelect name))

/-- Whether a rule can be compiled; if not, its first fault. The name is looked at first, then the conditions, the inequalities
and the selected variables. -/
def check (r : Rule) : Outcome Unit := do
  if r.name = "" then .error (.rule .emptyName none none)
  if r.conditions = [] then .error (r.failure .noConditions)
  r.checkSubjects 0 r.conditions
  r.inequalities.forM r.checkInequality
  r.select.forM r.checkSelected

/-- The constants that a variable differs from, in ascending order. -/
def excludedFor (r : Rule) (name : String) : List Term :=
  Ordered.merge compare ((r.inequalities.filterMap Inequality.pair?).filterMap fun p =>
    if p.1 = name then some p.2 else none) []

/-- The objects that the alpha memory of a condition has to keep out: the constants that a variable object differs from. -/
def excludedBy (r : Rule) (c : Condition) : List Term :=
  match c.objectVar? with
  | some name => r.excludedFor name
  | none => []

/-- The stages of conditions that follow others, which are listed nearest first. -/
def stagesAfter (r : Rule) : List Condition → List Condition → List Stage
  | _, [] => []
  | earlier, c :: cs => ⟨c, c.tests earlier, r.excludedBy c⟩ :: r.stagesAfter (c :: earlier) cs

/-- The stages of a rule, in the order of its conditions. -/
def stages (r : Rule) : List Stage := r.stagesAfter [] r.conditions

end Rule

end TripleRules
