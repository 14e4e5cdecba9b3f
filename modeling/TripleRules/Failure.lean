import TripleRules.Rule
import TripleRules.Text.Quoted

/-!
# Failures

What can go wrong: a rule that cannot be compiled, a tie between the most specific rules, a name that no rule has, a limit that
is exceeded, settings that cannot be used, and a handle that does not fit the network. Each failure keeps its cause; the
wording is in `Failure.message`. A caller can report a cause of its own under any heading.
-/

namespace TripleRules

/-- What is wrong with a rule. -/
inductive RuleFault where
  | emptyName
  | noConditions
  | constantSubject (condition : Condition)
  | unpaired (inequality : Inequality)
  | unboundInequality (inequality : Inequality) (name : String)
  | unboundSelect (name : String)
  | noLevelUp (name : String)
  | other (message : String)
  deriving DecidableEq, Repr

/-- The wording of a fault of a rule. -/
def RuleFault.message : RuleFault → String
  | emptyName => "rule name must not be empty"
  | noConditions => "rule has no conditions"
  | constantSubject c => "subject of " ++ c.text ++ " must be a variable"
  | unpaired i => i.text ++ " must pair a variable with a constant term"
  | unboundInequality i name => i.text ++ " constrains " ++ name ++ ", which no condition binds"
  | unboundSelect name => "selected variable " ++ name ++ " is not bound by any condition"
  | noLevelUp name => "join test for " ++ name ++ " must look at least one level up"
  | other message => message

/-- Which limit is exceeded. -/
inductive LimitFault where
  | longName (rule : String)
  | manyConditions (rule : String)
  | largeBatch
  | other (message : String)
  deriving DecidableEq, Repr

/-- The wording of an exceeded limit. -/
def LimitFault.message : LimitFault → String
  | longName rule => "rule name of " ++ rule ++ " is too long"
  | manyConditions rule => "rule " ++ rule ++ " has too many conditions"
  | largeBatch => "fact batch is too large"
  | other message => message

/-- Why settings cannot be used. -/
inductive SettingsFault where
  | notPositive
  | unreadable
  | malformed
  | other (message : String)
  deriving DecidableEq, Repr

/-- The wording of a fault of settings. -/
def SettingsFault.message : SettingsFault → String
  | notPositive => "must be greater than zero"
  | unreadable => "settings cannot be read"
  | malformed => "settings are malformed"
  | other message => message

/-- How a handle does not fit a network. -/
inductive NetworkFault where
  | missingNode
  | notJoin (kind : String)
  | notProduction (kind : String)
  | noTokens
  | noChildren
  | missingAlpha
  | missingMemory
  | misplacedJoin
  | misplacedChild
  | other (message : String)
  deriving DecidableEq, Repr

/-- The wording of a handle that does not fit. -/
def NetworkFault.message : NetworkFault → String
  | missingNode => "no such node"
  | notJoin kind => "expected join node, found " ++ kind
  | notProduction kind => "expected production node, found " ++ kind
  | noTokens => "node does not hold tokens"
  | noChildren => "node cannot have children"
  | missingAlpha => "join node refers to a missing alpha memory"
  | missingMemory => "pattern index returned a missing memory"
  | misplacedJoin => "join node parent is neither the network root nor a beta memory"
  | misplacedChild => "join child is not a token memory"
  | other message => message

/-- A failure and its cause. -/
inductive Failure where
  | rule (fault : RuleFault) (name : Option String) (condition : Option Nat)
  | ambiguous (rules : List String) (score : Nat)
  | unknownRule (name : String)
  | limit (fault : LimitFault) (limit actual : Nat)
  | settings (fault : SettingsFault) (setting : Option String)
  | network (fault : NetworkFault) (node : Nat)
  deriving DecidableEq, Repr

namespace Failure

/-- The heading of a failure. -/
def category : Failure → String
  | rule .. => "rule_definition"
  | ambiguous .. => "ambiguous_conflict"
  | unknownRule .. => "unknown_rule"
  | limit .. => "limit"
  | settings .. => "configuration"
  | network .. => "network"

/-- Whether a caller can go on after a failure: only a handle that does not fit shows a network in disorder. -/
def isRecoverable : Failure → Bool
  | network .. => false
  | _ => true

/-- The wording of a failure. -/
def message : Failure → String
  | rule fault _ _ => "Rule definition error: " ++ fault.message
  | ambiguous rules score =>
    "Ambiguous conflict between rules " ++ Text.quotedList rules ++ " (score " ++ toString score ++ ")"
  | unknownRule name => "Unknown rule: " ++ name
  | limit fault allowed actual =>
    "Limit exceeded: " ++ fault.message ++ " (limit " ++ toString allowed ++ ", actual " ++ toString actual ++ ")"
  | settings fault _ => "Configuration error: " ++ fault.message
  | network fault _ => "RETE network error: " ++ fault.message

end Failure

/-- A result, or the failure that kept it from being reached. -/
abbrev Outcome (α : Type) : Type := Except Failure α

end TripleRules
