import TripleRules.Alpha.Key
import TripleRules.Alpha.Memory
import TripleRules.Table

/-!
# The alpha index

The alpha index keeps one alpha memory for each key that was asked for. A fact goes to the memory of its predicate and object,
and to the memory of its predicate alone unless that one excludes its object.
-/

namespace TripleRules

/-- The alpha memories and the key of each. -/
structure AlphaIndex where
  /-- The memories, in the order of their creation. -/
  memories : Array AlphaMemory
  /-- The memory of each key. -/
  byKey : Table AlphaId
  /-- How often a memory was asked for that was there already. -/
  shared : Nat
  deriving DecidableEq, Repr

namespace AlphaIndex

/-- The index without memories. -/
def empty : AlphaIndex := ⟨#[], .empty, 0⟩

/-- The number of memories. -/
def size (x : AlphaIndex) : Nat := x.memories.size

/-- The memory with a handle. -/
def get? (x : AlphaIndex) (id : AlphaId) : Option AlphaMemory := x.memories[id]?

/-- The memory of a key and its handle. -/
def find? (x : AlphaIndex) (key : String) : Option (AlphaId × AlphaMemory) := do
  let id ← x.byKey.find? key
  return (id, ← x.get? id)

/-- Replaces the memory with a handle by a function of it. -/
def modify (x : AlphaIndex) (id : AlphaId) (f : AlphaMemory → AlphaMemory) : AlphaIndex :=
  { x with memories := x.memories.modify id f }

/-- The memory for a predicate and an object slot. It is created if its key is new; in both cases the objects to keep out are
added to those it keeps out already. -/
def request (x : AlphaIndex) (predicate : Term) (object : Slot) (excluded : List Term) : AlphaId × AlphaIndex :=
  let key := slotKey predicate object
  match x.byKey.find? key with
  | some id => (id, { x with shared := x.shared + 1 }.modify id (·.exclude excluded))
  | none =>
    let id := x.memories.size
    (id, {
      memories := x.memories.push ((AlphaMemory.fresh id key object.isVar).exclude excluded)
      byKey := x.byKey.insert key id
      shared := x.shared })

/-- Whether the memory with a handle keeps facts with an object out. -/
def excludes (x : AlphaIndex) (id : AlphaId) (object : Term) : Bool := (x.get? id).any (·.excludes object)

/-- The memories that a fact goes to: that of its predicate and object first, then that of its predicate alone. -/
def route (x : AlphaIndex) (f : Fact) : List AlphaId :=
  (x.byKey.find? (constantKey f.predicate f.object)).toList ++
    (x.byKey.find? f.predicate.text).toList.filter (!x.excludes · f.object)

end AlphaIndex

end TripleRules
