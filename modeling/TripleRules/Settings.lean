import TripleRules.Failure

/-!
# Settings

Settings limit what an engine takes in. They never change what it answers about what it has taken in. Each limit can be
overridden by an environment variable.
-/

namespace TripleRules

/-- The settings of an engine. -/
structure Settings where
  maxConditions : Nat
  maxFacts : Nat
  maxNameLength : Nat
  logDuplicates : Bool
  deriving DecidableEq, Repr

/-- A limit that an engine keeps to. -/
inductive Limit where
  | conditions
  | facts
  | nameLength
  deriving DecidableEq, Repr

namespace Limit

/-- The limits, in the order in which they are checked. -/
def all : List Limit := [conditions, facts, nameLength]

/-- The name of the setting that holds a limit. -/
def settingName : Limit → String
  | conditions => "max_conditions_per_rule"
  | facts => "max_facts_per_batch"
  | nameLength => "max_rule_name_length"

/-- The environment variable that overrides a limit. -/
def environmentName : Limit → String
  | conditions => "TRINE_MAX_CONDITIONS_PER_RULE"
  | facts => "TRINE_MAX_FACTS_PER_BATCH"
  | nameLength => "TRINE_MAX_RULE_NAME_LENGTH"

end Limit

namespace Settings

/-- The name of the setting that asks for duplicate facts to be logged. -/
def logDuplicatesName : String := "log_duplicate_facts"

/-- The settings where nothing is said. -/
def initial : Settings := ⟨64, 100000, 256, true⟩

instance : Inhabited Settings := ⟨initial⟩

/-- The value of a limit. -/
def limit (s : Settings) : Limit → Nat
  | .conditions => s.maxConditions
  | .facts => s.maxFacts
  | .nameLength => s.maxNameLength

/-- The settings with another value of a limit. -/
def withLimit (s : Settings) (value : Nat) : Limit → Settings
  | .conditions => { s with maxConditions := value }
  | .facts => { s with maxFacts := value }
  | .nameLength => { s with maxNameLength := value }

/-- Refuses settings with a limit of zero, and names the first of them. -/
def check (s : Settings) : Outcome Unit :=
  Limit.all.forM fun l =>
    if s.limit l = 0 then .error (.settings .notPositive (some l.settingName)) else .ok ()

/-- The number that an environment variable gives: decimal digits, after at most one plus sign, of a value of at most 64
bits. -/
def readLimit? (text : String) : Option Nat :=
  let digits := match text.toList with
    | '+' :: ds => ds
    | ds => ds
  if digits.isEmpty || !digits.all Char.isDigit then none
  else
    let value := Text.numeral 10 digits
    if value < Nat.pow 2 64 then some value else none

/-- Overrides the limits for which the environment gives a number. Anything else it gives is ignored. -/
def override (s : Settings) (environment : String → Option String) : Settings :=
  Limit.all.foldl (fun s l =>
    match (environment l.environmentName).bind readLimit? with
    | some value => s.withLimit value l
    | none => s) s

end Settings

end TripleRules
