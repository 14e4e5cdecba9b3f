import TripleRules.Matches
import TripleRules.Network.Batch
import TripleRules.Network.Census
import TripleRules.Network.Compile
import TripleRules.Network.Specificity
import TripleRules.Settings

/-!
# The engine

An engine is a network behind limits. Rules and batches that exceed a limit are refused before the network sees them.
Evaluating a batch forgets the one before.
-/

namespace TripleRules

/-- A network and the settings that guard it. -/
structure Engine where
  settings : Settings
  network : Network
  deriving Repr

namespace Engine

/-- An engine without rules, under settings that pass their check. -/
def create (s : Settings) : Outcome Engine := do
  s.check
  return ⟨s, .empty⟩

/-- Refuses a rule that exceeds a limit. The length of a name is counted in bytes of UTF-8. -/
def checkLimits (s : Settings) (r : Rule) : Outcome Unit :=
  if r.name.utf8ByteSize > s.maxNameLength then
    .error (.limit (.longName r.name) s.maxNameLength r.name.utf8ByteSize)
  else if r.conditions.length > s.maxConditions then
    .error (.limit (.manyConditions r.name) s.maxConditions r.conditions.length)
  else .ok ()

/-- Compiles a rule and gives the handle of its production. -/
def compile (e : Engine) (r : Rule) : Outcome (NodeId × Engine) := do
  checkLimits e.settings r
  let (id, network) ← e.network.addRule r
  return (id, { e with network })

/-- Compiles rules up to the first that is refused. The engine has the rules before that one. -/
def compileAll (e : Engine) : List Rule → Engine × Outcome Unit
  | [] => (e, .ok ())
  | r :: rs =>
    match e.compile r with
    | .ok (_, e) => e.compileAll rs
    | .error failure => (e, .error failure)

/-- Evaluates a batch from scratch. -/
def evaluate (e : Engine) (fs : List Fact) : Outcome (Matches × Engine) :=
  if fs.length > e.settings.maxFacts then .error (.limit .largeBatch e.settings.maxFacts fs.length)
  else do
    let network ← e.network.reset.addFacts fs
    return (← network.allMatches, { e with network })

end Engine

end TripleRules
