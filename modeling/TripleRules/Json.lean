import TripleRules.Table

/-!
# JSON values

A number written by digits alone is kept as a natural number. Any other number keeps its text, since no record of this library
holds one. The members of an object keep their order.
-/

namespace TripleRules

/-- A JSON value. -/
inductive Json where
  | null
  | bool (value : Bool)
  | natural (value : Nat)
  | number (text : String)
  | string (value : String)
  | array (items : List Json)
  | object (members : List (String × Json))
  deriving Repr, Inhabited

namespace Json

/-- The member of an object under a name. -/
def member? : Json → String → Option Json
  | object members, name => valueAt? name members
  | _, _ => none

/-- The text of a string. -/
def string? : Json → Option String
  | string value => some value
  | _ => none

/-- The value of a boolean. -/
def bool? : Json → Option Bool
  | bool value => some value
  | _ => none

/-- The largest natural number that a record field holds. -/
def maxNatural : Nat := Nat.pow 2 64 - 1

/-- The value of a natural number of at most 64 bits. -/
def natural? : Json → Option Nat
  | natural value => if value ≤ maxNatural then some value else none
  | _ => none

/-- The items of an array. -/
def array? : Json → Option (List Json)
  | array items => some items
  | _ => none

/-- The items of an array, each read by the same reader. -/
def listOf? {α : Type} (read : Json → Option α) (j : Json) : Option (List α) := do
  (← j.array?).mapM read

/-- The members of an object as a table, each value read by the same reader. -/
def tableOf? {α : Type} (read : Json → Option α) : Json → Option (Table α)
  | object members => do
    let es ← members.mapM fun m => (read m.2).map (m.1, ·)
    return Table.ofList es
  | _ => none

/-- The only member of an object that has one member. -/
def single? : Json → Option (String × Json)
  | object [m] => some m
  | _ => none

/-- An optional value: null where there is none. -/
def ofOption {α : Type} (write : α → Json) : Option α → Json
  | some a => write a
  | none => null

/-- A list as an array. -/
def ofList {α : Type} (write : α → Json) (as : List α) : Json := array (as.map write)

/-- A table as an object. -/
def ofTable {α : Type} (write : α → Json) (t : Table α) : Json :=
  object (t.entries.map fun e => (e.1, write e.2))

/-- The values of a record's fields, in the order in which the record declares them, and `none` for a field that is left out.
A record is read from an object, whose other members are ignored, or from an array of its fields, of which the last ones may
be left out and which has no items besides. -/
def record? (fields : List String) : Json → Option (List (Option Json))
  | object members => some (fields.map fun name => valueAt? name members)
  | array items =>
    if items.length ≤ fields.length then
      some (items.map some ++ List.replicate (fields.length - items.length) none)
    else none
  | _ => none

end Json

end TripleRules
