import Std.Data.TreeMap
import TripleRules.Term

/-!
# Facts

A fact is a triple of terms. Facts are ordered by subject, then predicate, then object, and the facts that are known are looked
up in a tree of that order. A field names one of the two places of a fact that a variable can stand for.
-/

namespace TripleRules

/-- The position of a fact in the working memory. -/
abbrev FactId := Nat

/-- An immutable triple. -/
structure Fact where
  subject : Term
  predicate : Term
  object : Term
  deriving DecidableEq, Repr, Inhabited

/-- The text of a fact: its three terms between parentheses. -/
def Fact.text (f : Fact) : String :=
  "(" ++ f.subject.text ++ " " ++ f.predicate.text ++ " " ++ f.object.text ++ ")"

/-- Facts are ordered by subject, then predicate, then object. -/
def Fact.compare (f g : Fact) : Ordering :=
  (Ord.compare f.subject g.subject).then
    ((Ord.compare f.predicate g.predicate).then (Ord.compare f.object g.object))

instance : Ord Fact := ⟨Fact.compare⟩

instance : Std.TransCmp Fact.compare :=
  inferInstanceAs (Std.TransCmp
    (compareLex (compareOn Fact.subject) (compareLex (compareOn Fact.predicate) (compareOn Fact.object))))

/-- Only equal facts compare as equal. -/
theorem Fact.compare_eq_iff (f g : Fact) : f.compare g = .eq ↔ f = g := by
  rw [Fact.compare, Ordering.then_eq_eq, Ordering.then_eq_eq, Std.compare_eq_iff_eq, Std.compare_eq_iff_eq,
    Std.compare_eq_iff_eq]
  cases f
  cases g
  simp

instance : Std.LawfulEqCmp Fact.compare where
  compare_self := (Fact.compare_eq_iff _ _).2 rfl
  eq_of_compare := (Fact.compare_eq_iff _ _).1

instance : Std.TransOrd Fact := inferInstanceAs (Std.TransCmp Fact.compare)

instance : Std.LawfulEqOrd Fact := inferInstanceAs (Std.LawfulEqCmp Fact.compare)

/-- A place of a fact that a variable can stand for. -/
inductive Field where
  | subject
  | object
  deriving DecidableEq, Repr

/-- The word for a field. -/
def Field.text : Field → String
  | .subject => "subject"
  | .object => "object"

/-- The term a field reads from a fact. -/
def Field.read : Field → Fact → Term
  | .subject, f => f.subject
  | .object, f => f.object

/-! ## Tables of facts -/

/-- A table that gives facts their handles. It is kept in an ordered tree, in which a look-up takes a number of steps that grows
with the logarithm of the size. -/
abbrev FactTable : Type := Std.TreeMap Fact FactId Fact.compare

namespace FactTable

/-- An insertion gives one fact its handle and leaves the others theirs. -/
theorem getElem?_insert (t : FactTable) (f g : Fact) (id : FactId) :
    (Std.TreeMap.insert t f id)[g]? = if g = f then some id else t[g]? := by
  simp only [Std.TreeMap.getElem?_insert, Fact.compare_eq_iff, @eq_comm _ f g]

/-- A table contains the facts that it gives a handle. -/
theorem contains_iff {t : FactTable} {f : Fact} : Std.TreeMap.contains t f = true ↔ ∃ id, t[f]? = some id := by
  rw [Std.TreeMap.contains_eq_isSome_getElem?, Option.isSome_iff_exists]

end FactTable

end TripleRules
