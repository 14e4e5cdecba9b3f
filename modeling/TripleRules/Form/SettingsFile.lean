import TripleRules.Settings
import TripleRules.Toml.Document

/-!
# Settings files

Settings are written down as a TOML document. Keys that are no settings are ignored. A file that is missing leaves all settings
at their initial values; one that cannot be read, or is no document, is refused.
-/

namespace TripleRules.Settings

/-- A limit in a document: an integer that is not negative. -/
def limitIn? (entries : Toml.Entries) (name : String) (initial : Nat) : Option Nat :=
  match valueAt? name entries with
  | none => some initial
  | some (.integer v) => if 0 ≤ v then some v.toNat else none
  | some _ => none

/-- A flag in a document. -/
def flagIn? (entries : Toml.Entries) (name : String) (initial : Bool) : Option Bool :=
  match valueAt? name entries with
  | none => some initial
  | some (.boolean v) => some v
  | some _ => none

/-- The settings in the entries of a document. -/
def ofEntries? (entries : Toml.Entries) : Option Settings := do
  return {
    maxConditions := ← limitIn? entries Limit.conditions.settingName initial.maxConditions
    maxFacts := ← limitIn? entries Limit.facts.settingName initial.maxFacts
    maxNameLength := ← limitIn? entries Limit.nameLength.settingName initial.maxNameLength
    logDuplicates := ← flagIn? entries logDuplicatesName initial.logDuplicates }

/-- Reads the text of a document. -/
def ofToml (text : String) : Outcome Settings :=
  match (Toml.parse? text).bind ofEntries? with
  | some s => .ok s
  | none => .error (.settings .malformed none)

/-- What is found where a settings file is looked for. -/
inductive File where
  | missing
  | unreadable
  | content (bytes : ByteArray)

/-- Loads settings from a file. Its bytes have to be UTF-8. -/
def load : File → Outcome Settings
  | .missing => .ok initial
  | .unreadable => .error (.settings .unreadable none)
  | .content bytes =>
    match String.fromUTF8? bytes with
    | some text => ofToml text
    | none => .error (.settings .unreadable none)

end TripleRules.Settings
