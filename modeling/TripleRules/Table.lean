/-!
# Tables

A table assigns at most one value to a name. Its entries keep the order in which their names were first inserted; a later
insertion under the same name replaces the value and keeps the place.
-/

namespace TripleRules

/-- Puts a value under a name: in place of the value it had, or at the end. -/
def putEntry {α : Type} (name : String) (value : α) : List (String × α) → List (String × α)
  | [] => [(name, value)]
  | e :: es => if e.1 = name then (name, value) :: es else e :: putEntry name value es

/-- The value under a name. -/
def valueAt? {α : Type} (name : String) : List (String × α) → Option α
  | [] => none
  | e :: es => if e.1 = name then some e.2 else valueAt? name es

/-- Putting a value keeps the names, and adds the name at the end if it is new. -/
theorem map_fst_putEntry {α : Type} (name : String) (value : α) (es : List (String × α)) :
    (putEntry name value es).map Prod.fst =
      if name ∈ es.map Prod.fst then es.map Prod.fst else es.map Prod.fst ++ [name] := by
  induction es with
  | nil => simp [putEntry]
  | cons e es ih =>
    unfold putEntry
    by_cases h : e.1 = name
    · simp [h]
    · have hne : name ≠ e.1 := fun he => h he.symm
      rw [if_neg h, List.map_cons, ih, List.map_cons]
      by_cases hm : name ∈ es.map Prod.fst
      · rw [if_pos hm, if_pos (List.mem_cons_of_mem _ hm)]
      · rw [if_neg hm, if_neg (List.not_mem_cons_of_ne_of_not_mem hne hm), List.cons_append]

/-- A finite map from names to values. -/
structure Table (α : Type) where
  entries : List (String × α)
  nodup_names : (entries.map Prod.fst).Nodup
  deriving DecidableEq, Repr

namespace Table

variable {α : Type}

/-- The table without entries. -/
def empty : Table α := ⟨[], List.nodup_nil⟩

instance : Inhabited (Table α) := ⟨empty⟩

/-- The names of a table, in the order of their first insertion. -/
def names (t : Table α) : List String := t.entries.map Prod.fst

/-- The number of entries. -/
def size (t : Table α) : Nat := t.entries.length

/-- Whether a table has no entries. -/
def isEmpty (t : Table α) : Bool := t.entries.isEmpty

/-- The value under a name. -/
def find? (t : Table α) (name : String) : Option α := valueAt? name t.entries

/-- Whether a table has a value under a name. -/
def contains (t : Table α) (name : String) : Bool := (t.find? name).isSome

/-- The table with a value put under a name. -/
def insert (t : Table α) (name : String) (value : α) : Table α where
  entries := putEntry name value t.entries
  nodup_names := by
    rw [map_fst_putEntry]
    split
    · exact t.nodup_names
    · rename_i h
      exact List.nodup_append.2 ⟨t.nodup_names, List.nodup_cons.2 ⟨List.not_mem_nil, List.nodup_nil⟩, fun a ha b hb => by
        rw [List.mem_singleton] at hb
        exact fun hab => h (hb ▸ hab ▸ ha)⟩

/-- The table with a value put under a name that has none; otherwise the table itself. -/
def insertNew (t : Table α) (name : String) (value : α) : Table α :=
  if t.contains name then t else t.insert name value

/-- The table of a list of entries; a later entry replaces an earlier one of the same name. -/
def ofList (es : List (String × α)) : Table α := es.foldl (fun t e => t.insert e.1 e.2) empty

end Table

theorem valueAt?_putEntry {α : Type} (name other : String) (value : α) (es : List (String × α)) :
    valueAt? other (putEntry name value es) = if other = name then some value else valueAt? other es := by
  induction es with
  | nil => simp [putEntry, valueAt?, eq_comm]
  | cons e es ih =>
    unfold putEntry
    split <;> rename_i he
    · by_cases h : other = name
      · simp [valueAt?, h]
      · simp [valueAt?, h, he, Ne.symm h]
    · by_cases h : e.1 = other
      · have hne : other ≠ name := fun h' => he (h.trans h')
        simp [valueAt?, h, hne]
      · simp [valueAt?, h, ih]

/-- Looking up after an insertion: the inserted value under its name, the old one under every other. -/
@[simp] theorem Table.find?_insert {α : Type} (t : Table α) (name other : String) (value : α) :
    (t.insert name value).find? other = if other = name then some value else t.find? other :=
  valueAt?_putEntry name other value t.entries

@[simp] theorem Table.find?_empty {α : Type} (name : String) : (Table.empty : Table α).find? name = none := rfl

end TripleRules
