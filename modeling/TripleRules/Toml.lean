import TripleRules.Table

/-!
# TOML values

The values of a TOML document. Numbers with a fraction and moments in time keep their text. A table that is written out below a
header remembers how it came about, which decides whether the document may add to it: it is implicit if only a longer header or
key made it necessary, and dotted if a dotted key did.
-/

namespace TripleRules

/-- A value of a TOML document. -/
inductive Toml where
  | integer (value : Int)
  | float (text : String)
  | boolean (value : Bool)
  | moment (text : String)
  | string (value : String)
  | array (items : List Toml)
  | inline (entries : List (String × Toml))
  | table (implicit dotted : Bool) (entries : List (String × Toml))
  | tables (items : List (List (String × Toml)))
  deriving Repr, Inhabited

namespace Toml

/-- The entries of a table. -/
abbrev Entries : Type := List (String × Toml)

/-- Changes the table that a path of keys leads to. Tables on the way that are missing are created: implicit ones, and dotted
ones if the path stands before a value. Of an array of tables the last one is meant. A path leads through no other value, and a
dotted path through no table that has a header of its own. The function is told whether the table it changes is dotted. -/
def descend (dotted : Bool) (change : Bool → Entries → Option Entries) : List String → Bool → Entries → Option Entries
  | [], self, es => change self es
  | k :: ks, _, es =>
    match valueAt? k es with
    | none => (descend dotted change ks dotted []).map fun sub => putEntry k (.table true dotted sub) es
    | some (.table implicit self sub) =>
      if dotted && !implicit then none
      else (descend dotted change ks self sub).map fun sub => putEntry k (.table implicit self sub) es
    | some (.tables items) =>
      match items.reverse with
      | last :: before =>
        (descend dotted change ks false last).map fun sub => putEntry k (.tables (sub :: before).reverse) es
      | [] => none
    | some _ => none

/-- Gives a value to a key at the end of a dotted path. The key has to be new. A path leads only to tables that dotted keys
created, and without a path only a table that none created takes a value. -/
def assign (path : List String) (key : String) (value : Toml) : Entries → Option Entries :=
  descend true (fun dotted es =>
    if dotted == path.isEmpty || (valueAt? key es).isSome then none else some (putEntry key value es)) path false

/-- Opens the table of a header. A table that is there already may be opened only if it is implicit and not dotted. -/
def openTable (path : List String) (key : String) : Entries → Option Entries :=
  descend false (fun _ es =>
    match valueAt? key es with
    | none => some (putEntry key (.table false false []) es)
    | some (.table true false sub) => some (putEntry key (.table false false sub) es)
    | some _ => none) path false

/-- Opens one more table of an array of tables. -/
def appendTable (path : List String) (key : String) : Entries → Option Entries :=
  descend false (fun _ es =>
    match valueAt? key es with
    | none => some (putEntry key (.tables [[]]) es)
    | some (.tables items) => some (putEntry key (.tables (items ++ [[]])) es)
    | some _ => none) path false

end Toml

end TripleRules
