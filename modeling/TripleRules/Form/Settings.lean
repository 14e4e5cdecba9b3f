import TripleRules.Json
import TripleRules.Settings

/-!
# The JSON form of settings

Settings are a record whose fields may all be left out.
-/

namespace TripleRules.Settings

/-- The names of the settings. -/
def fieldNames : List String := Limit.all.map Limit.settingName ++ [logDuplicatesName]

/-- The JSON form of settings. -/
def toJson (s : Settings) : Json :=
  .object (Limit.all.map (fun l => (l.settingName, .natural (s.limit l))) ++ [(logDuplicatesName, .bool s.logDuplicates)])

/-- Reads a field that may be left out. -/
def fieldOr {α : Type} (read : Json → Option α) (initial : α) : Option Json → Option α
  | some j => read j
  | none => some initial

/-- Reads settings. -/
def ofJson? (j : Json) : Option Settings := do
  match ← j.record? fieldNames with
  | [conditions, facts, nameLength, logDuplicates] =>
    return {
      maxConditions := ← fieldOr Json.natural? initial.maxConditions conditions
      maxFacts := ← fieldOr Json.natural? initial.maxFacts facts
      maxNameLength := ← fieldOr Json.natural? initial.maxNameLength nameLength
      logDuplicates := ← fieldOr Json.bool? initial.logDuplicates logDuplicates }
  | _ => none

end TripleRules.Settings
